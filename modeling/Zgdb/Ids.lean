/-
# Ids of documents

The id of a document holds the offset its block had when the document was created and the time.  As
long as the index table is not expanded a block stays where it is, and the blocks of the live
documents lie apart, so their ids differ in the offset (`InPlace`).  The text of an id is the digits
of the offset and then those of the time, without anything between them: it tells two offsets apart
when all the times have the same number of digits.

All of this holds in the runs in which no toast spills (`ids_unique`).
-/
import Zgdb.Frame
import Zgdb.Operators
import Zgdb.Spare

namespace Zgdb

open Zgdb.Lib AddrSpace

variable {A : Type} [BlockSpace A]

/-! ## 1. Texts

The two numbers are written one after the other.  Their digits can be told apart when it is known
how many there are of the second. -/

theorem decimal_inj {m n : Nat} (h : decimal m = decimal n) : m = n := by
  rw [← digitsValue_decimal m, h, digitsValue_decimal]

/-- The text of an id tells offsets apart when the times have the same number of digits. -/
theorem idText_inj {id id' : DocumentId}
    (hlen : (decimal id.timestamp.toNat).length = (decimal id'.timestamp.toNat).length)
    (h : idText id = idText id') : id.offset = id'.offset :=
  decimal_inj (List.append_inj' h hlen).1

/-! ## 2. What the ids say

The offset in an id is that of the time of the creation.  It is still the offset of the block, as
nothing has moved it. -/

/-- Each live document is where its id says, and was created at a time of `n` digits.  The offset in
an id is the place that the block had when the document was created; an expansion of the index table
moves the block and leaves the id. -/
def InPlace (n : Nat) (file : ZgdbFile A) : Prop :=
  ∀ k, Live file k → (getDocumentHeader file k).id.offset = (file.indexes k).offset ∧
    (decimal (getDocumentHeader file k).id.timestamp.toNat).length = n

/-- The ids tell the live documents apart, as offsets and as texts, so that no more than one of them
meets an equality predicate on `id`. -/
structure Identified (file : ZgdbFile A) : Prop where
  offset : ∀ j k, Live file j → Live file k → j ≠ k →
    (getDocumentHeader file j).id.offset ≠ (getDocumentHeader file k).id.offset
  text : ∀ j k, Live file j → Live file k → j ≠ k →
    idText (getDocumentHeader file j).id ≠ idText (getDocumentHeader file k).id
  selects : ∀ env s input j k p q m n, Live file j → Live file k →
    comparison env file (documentAt file j p) s m Name.id input false .equals = true →
    comparison env file (documentAt file k q) s n Name.id input false .equals = true → j = k

section Steps

variable {env : Env A} {file file' : ZgdbFile A} {T : Forest Nat} {es : Nat → List StoredElement}
  {own : Nat → List Nat} {n : Nat}

/-- Blocks that lie apart start at different places. -/
theorem Store.offset_ne (hs : Store file T es own) {j k : Nat} (hj : Live file j)
    (hk : Live file k) (hjk : j ≠ k) : (file.indexes j).offset ≠ (file.indexes k).offset := by
  intro he
  have hdisj := hs.blocks.placed.filled.disjoint j k (.inl hj.1) (.inl hk.1) hjk
  have hcapj := (hs.isDocument (hs.live_iff.mp hj)).header_le
  have hcapk := (hs.isDocument (hs.live_iff.mp hk)).header_le
  simp only [sizeofDocumentHeader] at hcapj hcapk
  omega

theorem InPlace.identified (h : InPlace n file) (hs : Store file T es own) : Identified file := by
  have hoffset : ∀ j k, Live file j → Live file k → j ≠ k →
      (getDocumentHeader file j).id.offset ≠ (getDocumentHeader file k).id.offset := by
    intro j k hj hk hjk
    rw [(h j hj).1, (h k hk).1]
    exact hs.offset_ne hj hk hjk
  have htext : ∀ j k, Live file j → Live file k → j ≠ k →
      idText (getDocumentHeader file j).id ≠ idText (getDocumentHeader file k).id := by
    intro j k hj hk hjk he
    exact hoffset j k hj hk hjk (idText_inj ((h j hj).2.trans (h k hk).2.symm) he)
  refine ⟨hoffset, htext, ?_⟩
  intro env s input j k p q m n hj hk hselj hselk
  rw [comparison_id, decide_eq_true_eq] at hselj hselk
  by_contra hjk
  exact htext j k hj hk hjk (hselj.trans hselk.symm)

/-- A document that is carried over keeps its id. -/
theorem InPlace.carried (h : InPlace n file) {k : Nat} (hk : Live file k)
    (hlinked : Relinked file file' k)
    (hoffset : (file'.indexes k).offset = (file.indexes k).offset) :
    (getDocumentHeader file' k).id.offset = (file'.indexes k).offset ∧
      (decimal (getDocumentHeader file' k).id.timestamp.toNat).length = n := by
  rw [hlinked.header, hoffset]
  exact h k hk

/-- **The id of a new document** holds the time and the place of its block. -/
theorem createDocument_id (hs : Store file T es own) {now : UInt32} {name : Name}
    {schema : DocumentSchema} {parent : Document} {status : CreateStatus}
    (hp : parent.header.indexAttached ∈ T.nodes) (hwf : schema.Wf) (hcomplete : schema.Complete)
    (hexp : needsExpansion file = false)
    (hspill : schema.reqToast = true → NoSpill file (toastRequest schema))
    (hc : createDocument env.expandIndexes now file name schema parent = some (status, file')) :
    ∃ m, (getDocumentHeader file' parent.header.indexAttached).indexSon = m ∧
      (getDocumentHeader file' m).id = ⟨now, (file'.indexes m).offset⟩ := by
  have hexpanded : ∀ file1, expanded env.expandIndexes file = some file1 → file1 = file := by
    intro file1 he
    exact (Option.some.inj ((expanded_of_not hexp).symm.trans he)).symm
  have hrelocated : ∀ file1, expanded env.expandIndexes file = some file1 →
      Relocated file file1 := by
    intro file1 he
    rw [hexpanded file1 he]
    exact Relocated.refl hs.blocks
  obtain ⟨-, file1, file2, file3, t, n, own', -, h⟩ := createDocument_making hs.blocks hwf hcomplete
    hrelocated (fun file1 he => by rw [hexpanded file1 he]; exact hspill) hc
  have hindexes : file'.indexes = file3.indexes := by
    rw [h.linked]
    rfl
  refine ⟨n.indexOrder, by rw [(h.relinked hs hp).2.1], ?_⟩
  rw [h.newHeader_eq hs hp, hindexes, h.block.attached.self]
  rfl

/-! ## 3. Runs

What the toasts of a run must not do is to spill: zero bytes over a header change the id with it. -/

/-- The times that a call records have `n` digits. -/
def Call.Dated (n : Nat) : Call → Prop
  | create now .. => (decimal now.toNat).length = n
  | _ => True

/-- The toast of a creation does not spill. -/
def Call.Contained (file : ZgdbFile A) : Call → Prop
  | create _ _ _ schema => schema.reqToast = true → NoSpill file (toastRequest schema)
  | _ => True

/-- A creation or a deletion that neither expands the index table nor spills, at a time of `n`
digits. -/
structure Call.Plain (n : Nat) (file : ZgdbFile A) (call : Call) : Prop where
  legal : call.Legal file
  structural : call.Structural
  unexpanded : call.Unexpanded file
  contained : call.Contained file
  dated : call.Dated n

theorem Call.Plain.clean {call : Call} (h : call.Plain n file) (hs : Sound file) :
    call.Clean env file := by
  obtain ⟨T, es, own, hs⟩ := hs
  cases call with
  | create now p name schema =>
    intro file1 he
    obtain rfl := Option.some.inj ((expanded_of_not h.unexpanded).symm.trans he)
    exact ⟨Relocated.refl hs.blocks, h.contained⟩
  | delete d p => trivial
  | deleteRoot => exact h.structural.elim
  | update k key input => exact h.structural.elim

/-- **One call** leaves every live document with an id that says where it is. -/
theorem exec_inPlace {call : Call} (hs : Sound file) (hin : InPlace n file) (h : call.Plain n file)
    (he : call.exec env file = some file') : InPlace n file' := by
  have hclean : call.Clean env file := h.clean hs
  obtain ⟨T, es, own, hs⟩ := hs
  cases call with
  | create now p name schema =>
    obtain ⟨m, own', hi, halloc⟩ := exec_create hs h.legal hclean he
    obtain ⟨file2, node, -, ha⟩ := halloc file (expanded_of_not h.unexpanded)
    have hp := hs.live_iff.mp h.legal.1
    have hatt : (documentAt file p 0).header.indexAttached = p := hs.attached hp
    obtain ⟨⟨status, f⟩, hrun, rfl⟩ := Option.map_eq_some_iff.mp he
    obtain ⟨m', hson, hid⟩ := createDocument_id hs (by rw [hatt]; exact hp) h.legal.2.1.wf
      h.legal.2.2 h.unexpanded h.contained hrun
    rw [hatt] at hson
    obtain rfl := hi.son.symm.trans hson
    intro k hk
    have hkT := (Forest.mem_nodes_insertUnder hs.nodup hp).mp (hi.store.live_iff.mp hk)
    rcases hkT with rfl | hkT
    · rw [hid]
      exact ⟨rfl, h.dated⟩
    · exact hin.carried (hs.live_iff.mpr hkT) (hi.carried k hkT).1
        (ha.extended.offset k (.inl (hs.alive hkT)))
  | delete d p =>
    obtain ⟨file'', hrun, ts, hr⟩ : ∃ file'', (Call.delete d p).exec env file = some file'' ∧ _ :=
      exec_delete env hs h.legal
    obtain rfl := Option.some.inj (hrun.symm.trans he)
    intro k hk
    have hkept := hr.store.live_iff.mp hk
    have hkT : k ∈ T.nodes :=
      ((Forest.mem_nodes_remove hs.nodup (hs.live_iff.mp h.legal.1)).mp hkept).1
    refine hin.carried (hs.live_iff.mpr hkT) (hr.carried k hkept).1 ?_
    rw [hr.reclaimed.indexes]
    split <;> rfl
  | deleteRoot => exact h.structural.elim
  | update k key input => exact h.structural.elim

theorem init_inPlace {now : UInt32} (h : (decimal now.toNat).length = n) :
    InPlace n (init now : ZgdbFile A) := by
  intro k hk
  obtain rfl := init_alive.mp hk.1
  obtain ⟨-, hhdr, -⟩ : IsDocument (init now : ZgdbFile A) 0 ∧
    getDocumentHeader (init now : ZgdbFile A) 0 = rootHeader now ∧ _ := init_root
  rw [hhdr, init_index]
  exact ⟨rfl, h⟩

/-- **Ids identify documents** after any creations and deletions without expansion at times with one
number of digits, as long as no toast spills.  The offsets of live documents differ because their
blocks do, and no block is moved; the digits of the time have a fixed number, so two texts of an id
are the same only for the same offset. -/
theorem ids_unique {now : UInt32} {calls : List Call} (hnow : (decimal now.toNat).length = n)
    (hrun : Run (Call.exec env) (Call.Plain n) (init now) calls file) : Identified file := by
  have hinit : Sound (init now : ZgdbFile A) ∧ InPlace n (init now : ZgdbFile A) :=
    ⟨⟨_, _, _, init_store⟩, init_inPlace hnow⟩
  obtain ⟨⟨T, es, own, hs⟩, hin⟩ := hrun.inv (I := fun f => Sound f ∧ InPlace n f) hinit
    fun f call f' hf hcall he =>
      ⟨exec_sound hf.1 hcall.legal (hcall.clean hf.1) he, exec_inPlace hf.1 hf.2 hcall he⟩
  exact hin.identified hs

end Steps

def clashTime : UInt32 := 1700000000

theorem clashTime_digits : (decimal clashTime.toNat).length = 10 := by
  simp [clashTime, decimal]

/-- A new store and the first document in it, whose text gets a toast. -/
theorem ids_unique_first : ∃ file : ZgdbFile Nat,
    Call.exec flatEnv (init clashTime) (.create clashTime 0 keyA oneText) = some file ∧
      Identified file := by
  obtain ⟨hclean, file, n, own, hrun, -⟩ :=
    create_first flatEnv clashTime keyA oneText_built (by decide)
  have hexp : needsExpansion (init clashTime : ZgdbFile Nat) = false := by
    simp only [needsExpansion, decide_eq_false_iff_not]
    rw [(init_undead clashTime).2]
    decide
  have hexec : Call.exec flatEnv (init clashTime) (.create clashTime 0 keyA oneText)
      = some file := by
    rw [Call.exec, hrun]
    rfl
  refine ⟨file, hexec, ids_unique clashTime_digits ((Run.nil _).snoc ?_ hexec)⟩
  exact {
    legal := ⟨live_init clashTime, oneText_built, by decide⟩
    structural := trivial
    unexpanded := hexp
    contained := (hclean _ (expanded_of_not hexp)).2
    dated := clashTime_digits }

/-! ## 4. A toast that spills

The zero bytes of a toast run over the headers of two documents, and both have the id 0 then. -/

/-- A document with four texts. -/
def fourTexts : DocumentSchema :=
  (addTextToSchema (addTextToSchema (addTextToSchema (addTextToSchema (initSchema 4)
    keyA stringA).2 keyB stringA).2 keyC stringA).2 keyD stringA).2

theorem fourTexts_built : fourTexts.Built := .text _ _ (.text _ _ (.text _ _ (.text _ _ (.init 4))))

/-- Of the first four documents, the first one is deleted.  The toast of the next document takes its
block, and the zero bytes run into the toast of the second one, which is deleted next: the toast is
free with a block of size 0.  The texts of the last document get this block as if it was NEW, and
the zero bytes of the toast run over the third and the fourth document. -/
def clashCalls : List Call :=
  [.create clashTime 0 keyA onlyInt, .create clashTime 0 keyA oneText,
    .create clashTime 0 keyA (initSchema 0), .delete 49999 0, .create clashTime 0 keyA oneText,
    .delete 49997 0, .create clashTime 0 keyA fourTexts]

/-- The store after the first `n` of the calls. -/
abbrev clashAt (n : Nat) : ZgdbFile Nat := stateAt clashTime clashCalls n

theorem clash_returns : ∀ n < 7, ∀ call ∈ clashCalls[n]?, (call.exec flatEnv (clashAt n)).isSome ∧
    Live (clashAt n) 0 ∧ needsExpansion (clashAt n) = false := by
  decide +kernel

/-- What is deleted is the third son, and has no sons. -/
theorem clash_sons : ∀ x ∈ [(3, 49996, 49997, 49999), (5, 49995, 49996, 49997)],
    sonOf (clashAt x.1) 0 = some x.2.1 ∧ brotherOf (clashAt x.1) x.2.1 = some x.2.2.1 ∧
      brotherOf (clashAt x.1) x.2.2.1 = some x.2.2.2 ∧ Live (clashAt x.1) x.2.2.2 ∧
      (getDocumentHeader (clashAt x.1) x.2.2.2).indexSon = 0 := by
  decide +kernel

/-- Two documents have lost their headers. -/
theorem clash_end : Live (clashAt 7) 49995 ∧ Live (clashAt 7) 49996 ∧
    (getDocumentHeader (clashAt 7) 49995).id = ⟨0, 0⟩ ∧
    (getDocumentHeader (clashAt 7) 49996).id = ⟨0, 0⟩ := by
  decide +kernel

theorem clash_create {n : Nat} {name : Name} {schema : DocumentSchema} (hn : n < 7)
    (hcall : clashCalls[n]? = some (.create clashTime 0 name schema)) (hbuilt : schema.Built)
    (hcomplete : schema.Complete) : (Call.create clashTime 0 name schema).Legal (clashAt n) ∧
      (Call.create clashTime 0 name schema).Simple (clashAt n) ∧
      (Call.create clashTime 0 name schema).Structural ∧
      (Call.create clashTime 0 name schema).Dated 10 := by
  obtain ⟨-, hlive, hexp⟩ := clash_returns n hn _ hcall
  exact ⟨⟨hlive, hbuilt, hcomplete⟩, hexp, trivial, clashTime_digits⟩

theorem clash_delete {n d : Nat} (a b : Nat) (hn : n < 7) (hd : d ≠ 0)
    (hcall : clashCalls[n]? = some (.delete d 0))
    (h : (n, a, b, d) ∈ [(3, 49996, 49997, 49999), (5, 49995, 49996, 49997)]) :
    (Call.delete d 0).Legal (clashAt n) ∧ (Call.delete d 0).Simple (clashAt n) ∧
      (Call.delete d 0).Structural ∧ (Call.delete d 0).Dated 10 := by
  obtain ⟨-, hroot, -⟩ := clash_returns n hn _ hcall
  obtain ⟨h1, h2, h3, hlive, hleaf⟩ := clash_sons _ h
  exact ⟨⟨hlive, hd, hroot, .next (.next (.first h1) h2) h3⟩, hleaf, trivial, trivial⟩

theorem clash_step {n : Nat} {call : Call} (hn : n < 7) (hcall : clashCalls[n]? = some call) :
    call.Legal (clashAt n) ∧ call.Simple (clashAt n) ∧ call.Structural ∧ call.Dated 10 := by
  match n, hn with
  | 0, hn =>
    obtain rfl := Option.some.inj hcall
    exact clash_create hn rfl onlyInt_built rfl
  | 1, hn | 4, hn =>
    obtain rfl := Option.some.inj hcall
    exact clash_create hn rfl oneText_built rfl
  | 2, hn =>
    obtain rfl := Option.some.inj hcall
    exact clash_create hn rfl noElements_built rfl
  | 3, hn =>
    obtain rfl := Option.some.inj hcall
    exact clash_delete 49996 49997 hn (by decide) rfl (by decide)
  | 5, hn =>
    obtain rfl := Option.some.inj hcall
    exact clash_delete 49995 49996 hn (by decide) rfl (by decide)
  | 6, hn =>
    obtain rfl := Option.some.inj hcall
    exact clash_create hn rfl fourTexts_built rfl

/-- **Two documents with one id.** -/
theorem ids_clash : ¬ ∀ (n : Nat) (now : UInt32) (calls : List Call) (file : ZgdbFile Nat),
    (decimal now.toNat).length = n →
    Run (Call.exec flatEnv) (fun file call => call.Legal file ∧ call.Unexpanded file ∧
      call.Structural ∧ call.Dated n) (init now) calls file → Identified file := by
  intro h
  obtain ⟨left, hrun⟩ : ∃ left, Run (Call.exec flatEnv) (fun file call => call.Legal file ∧
      call.Unexpanded file ∧ call.Structural ∧ call.Dated 10) (init clashTime) clashCalls
      ((clashAt 7).withFree left) := by
    refine run_stateAt (fun _ _ _ hok => hok) (by simp [clashCalls, indexInitialCapacity]) ?_
    intro n call hcall
    have hn : n < 7 := (List.getElem?_eq_some_iff.mp hcall).1
    exact ⟨(clash_returns n hn call hcall).1, clash_step hn hcall⟩
  have hids : Identified ((clashAt 7).withFree left) :=
    h 10 clashTime clashCalls _ clashTime_digits hrun
  obtain ⟨hj, hk, hidj, hidk⟩ := clash_end
  have hne := hids.offset 49995 49996 (live_withFree.mpr hj) (live_withFree.mpr hk) (by simp)
  rw [getDocumentHeader_withFree, getDocumentHeader_withFree, hidj, hidk] at hne
  exact hne rfl

end Zgdb
