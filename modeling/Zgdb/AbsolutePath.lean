/-
# Absolute paths

An absolute step should get from a document to its sons.  It gets to one document more, the first
son of the last son that has sons (`Overrun`), because the inner loop compares the depth of the
document it has handled, not of the one it is about to handle.  Without predicates a path of
absolute document steps therefore finds the documents of its level exactly when no trail of the
path goes over such a document (`absolute_path`).
-/
import Zgdb.Search

namespace Zgdb

open Zgdb.Lib AddrSpace

variable {A : Type} [BlockSpace A]

/-! ## 1. Levels of the tree

The documents of one level are those that absolute steps should get to. -/

/-- `k` is `d` levels below the root. -/
inductive Level (file : ZgdbFile A) : Nat → Nat → Prop
  | root : Level file 0 0
  | son {d p k : Nat} : Level file d p → SonOf file p k → Level file (d + 1) k

section Levels

variable {file : ZgdbFile A} {T : Forest Nat}

/-- No link leads to the root. -/
theorem not_sonOf_root {p : Nat} (h : SonOf file p 0) : False := by
  cases h with
  | first h => exact (link_eq_some.mp h).2 rfl
  | next _ h => exact (link_eq_some.mp h).2 rfl

theorem Level.mem (h : DocTree file T) {d k : Nat} (hk : Level file d k) : k ∈ T.nodes := by
  induction hk with
  | root => exact h.root_mem
  | son _ hson ih => exact h.son_mem ih hson

/-- **A document has one level.** -/
theorem Level.unique (h : DocTree file T) {d e k : Nat} (hd : Level file d k)
    (he : Level file e k) : d = e := by
  induction hd generalizing e with
  | root =>
    cases he with
    | root => rfl
    | son _ hson => exact (not_sonOf_root hson).elim
  | @son d p k hp hson ih =>
    cases he with
    | root => exact (not_sonOf_root hson).elim
    | @son e q _ hq hson' =>
      obtain rfl := h.links.isSon_unique h.nodup (hp.mem h) (hq.mem h) hson hson'
      rw [ih hq]

end Levels

/-! ## 2. Steps that go one document too far

The inner loop stops at the first document of another depth, after it has been matched.  It is the
first son of the last sibling that has sons, and the same for every step over these siblings. -/

/-- An absolute document step without predicates. -/
structure StepWith.IsAbsoluteDocument (s : Step) : Prop where
  absolute : s.pType = .absolutePath
  document : s.sType = .documentStep
  noPredicate : s.pred = []

/-- The document carries the name of the step. -/
def CarriesName (file : ZgdbFile A) (s : Step) (k : Nat) : Prop :=
  (getDocumentHeader file k).name = s.stepName

/-- `k` is the first son of the last son of `p` that has sons.  This is where the scan of an
absolute step gets to when it leaves the level of the sons of `p`: the loop compares the depth only
after it has taken the next document from the stack. -/
def Overrun (file : ZgdbFile A) (T : Forest Nat) (p k : Nat) : Prop :=
  ∃ pre a post, (T.sonsOf p).roots = pre ++ a :: post ∧ sonOf file a = some k ∧
    ∀ c ∈ post, sonOf file c = none

/-- `k` is at the level of the path, below documents that carry the names of the steps: what an
absolute path is meant to find. -/
def OnLevel (file : ZgdbFile A) (ss : List Step) (k : Nat) : Prop :=
  Trail (fun _ => SonOf file) (CarriesName file) 0 ss k

/-- A trail of sons with the names of the steps that goes too far at least once: at some step it
goes to the document that the scan fetches behind the sons.  From there on it may do so again or
not. -/
def OverrunTrail (file : ZgdbFile A) (T : Forest Nat) : Nat → List Step → Nat → Prop
  | _, [], _ => False
  | p, s :: ss, k => ∃ a, CarriesName file s a ∧
      ((Overrun file T p a ∧
          Trail (fun _ p a => SonOf file p a ∨ Overrun file T p a) (CarriesName file) a ss k) ∨
        (SonOf file p a ∧ OverrunTrail file T a ss k))

section Overruns

variable {file : ZgdbFile A} {T : Forest Nat} {ss : List Step}

theorem Overrun.sons (h : DocTree file T) {p k : Nat} (hp : p ∈ T.nodes)
    (hk : Overrun file T p k) : ∃ a, SonOf file p a ∧ SonOf file a k := by
  obtain ⟨pre, a, post, hr, hson, -⟩ := hk
  exact ⟨a, (h.sonOf_iff hp).mpr (by rw [hr]; simp), .first hson⟩

theorem overrun_iff (h : DocTree file T) {p k : Nat} (hp : p ∈ T.nodes) :
    Overrun file T p k ↔ ∃ a, (T.sonsOf p).firstBelow = some (k, a) := by
  simp only [(h.links.sonsOf hp).firstBelow_iff]
  exact ⟨fun ⟨pre, a, post, hr⟩ => ⟨a, pre, post, hr⟩, fun ⟨a, pre, post, hr⟩ => ⟨pre, a, post, hr⟩⟩

/-- What an absolute step scans. -/
theorem scans_absolute (h : DocTree file T) {p k : Nat} (hp : p ∈ T.nodes) :
    Scans file T .absolutePath p k ↔ SonOf file p k ∨ Overrun file T p k :=
  or_congr_right (overrun_iff h hp).symm

/-- A trail either stays on its level or goes too far. -/
theorem trail_or {p k : Nat} :
    Trail (fun _ p a => SonOf file p a ∨ Overrun file T p a) (CarriesName file) p ss k ↔
      Trail (fun _ => SonOf file) (CarriesName file) p ss k ∨ OverrunTrail file T p ss k := by
  induction ss generalizing p with
  | nil => simp [Trail, OverrunTrail]
  | cons s ss ih =>
    simp only [Trail, OverrunTrail]
    constructor
    · rintro ⟨a, hson | hover, hname, hrest⟩
      · rcases ih.mp hrest with hrest | hrest
        · exact Or.inl ⟨a, hson, hname, hrest⟩
        · exact Or.inr ⟨a, hname, Or.inr ⟨hson, hrest⟩⟩
      · exact Or.inr ⟨a, hname, Or.inl ⟨hover, hrest⟩⟩
    · rintro (⟨a, hson, hname, hrest⟩ | ⟨a, hname, ⟨hover, hrest⟩ | ⟨hson, hrest⟩⟩)
      · exact ⟨a, Or.inl hson, hname, ih.mpr (Or.inl hrest)⟩
      · exact ⟨a, Or.inr hover, hname, hrest⟩
      · exact ⟨a, Or.inl hson, hname, ih.mpr (Or.inr hrest)⟩

/-- A trail of sons goes down one level a step. -/
theorem Level.trail {d p k : Nat} (hp : Level file d p)
    (ht : Trail (fun _ => SonOf file) (CarriesName file) p ss k) :
    Level file (d + ss.length) k := by
  induction ss generalizing d p with
  | nil =>
    obtain rfl : p = k := ht
    exact hp
  | cons s ss ih =>
    obtain ⟨a, hson, -, hrest⟩ := ht
    rw [List.length_cons, ← Nat.add_assoc, Nat.add_right_comm]
    exact ih (hp.son hson) hrest

theorem Level.trail_le (h : DocTree file T) {d p k : Nat} (hp : Level file d p)
    (ht : Trail (fun _ p a => SonOf file p a ∨ Overrun file T p a) (CarriesName file) p ss k) :
    ∃ e, d + ss.length ≤ e ∧ Level file e k := by
  induction ss generalizing d p with
  | nil =>
    obtain rfl : p = k := ht
    exact ⟨d, Nat.le_refl d, hp⟩
  | cons s ss ih =>
    obtain ⟨a, hson | hover, -, hrest⟩ := ht
    · obtain ⟨e, hle, he⟩ := ih (hp.son hson) hrest
      exact ⟨e, by rw [List.length_cons]; omega, he⟩
    · obtain ⟨b, hb, hba⟩ := hover.sons h (hp.mem h)
      obtain ⟨e, hle, he⟩ := ih ((hp.son hb).son hba) hrest
      exact ⟨e, by rw [List.length_cons]; omega, he⟩

/-- **A trail that goes too far ends below the level of the path.** -/
theorem Level.overrun (h : DocTree file T) {d p k : Nat} (hp : Level file d p)
    (ht : OverrunTrail file T p ss k) : ∃ e, d + ss.length < e ∧ Level file e k := by
  induction ss generalizing d p with
  | nil => exact ht.elim
  | cons s ss ih =>
    obtain ⟨a, -, ⟨hover, hrest⟩ | ⟨hson, hrest⟩⟩ := ht
    · obtain ⟨b, hb, hba⟩ := hover.sons h (hp.mem h)
      obtain ⟨e, hle, he⟩ := ((hp.son hb).son hba).trail_le h hrest
      exact ⟨e, by rw [List.length_cons]; omega, he⟩
    · obtain ⟨e, hlt, he⟩ := ih (hp.son hson) hrest
      exact ⟨e, by rw [List.length_cons]; omega, he⟩

/-- Such a trail ends at no document of the level. -/
theorem OverrunTrail.not_onLevel (h : DocTree file T) {k : Nat} (ht : OverrunTrail file T 0 ss k) :
    ¬ OnLevel file ss k := by
  intro hk
  obtain ⟨e, hlt, he⟩ := Level.root.overrun h ht
  have heq := (Level.root.trail hk).unique h he
  omega

end Overruns

/-! ## 3. What an absolute path finds

A document found at a deeper level needs one step of the path to go too far; and once a step has
gone too far the rest of the path stays below it. -/

section Paths

variable {env : SearchEnv} {file : ZgdbFile A} {T : Forest Nat} {fuel : Nat} {ss : List Step}

/-- Without predicates a document matches by its name. -/
theorem matched_iff {s : Step} (hs : s.IsAbsoluteDocument) {p k : Nat} (hp : p ∈ T.nodes)
    (hk : SonOf file p k) :
    Matched env file T s k ↔ CarriesName file s k := by
  have hsat : ∀ {doc}, FoundAs file T doc k →
      (satisfies env file s doc = true ↔ CarriesName file s k) := by
    rintro doc ⟨q, -, -, rfl⟩
    simp only [satisfies, calculatePredicate, hs.noPredicate, if_true, Bool.and_true, documentAt]
    exact decide_eq_true_iff
  constructor
  · rintro ⟨-, doc, hfound, hok⟩
    exact (hsat hfound).mp hok
  · intro hname
    have hfound : FoundAs file T (documentAt file k p) k := ⟨p, hp, hk, rfl⟩
    exact ⟨hs.document, _, hfound, (hsat hfound).mpr hname⟩

/-- The trails of absolute document steps. -/
theorem trail_iff (h : DocTree file T) (hss : ∀ s ∈ ss, s.IsAbsoluteDocument) {p k : Nat}
    (hp : p ∈ T.nodes) :
    Trail (Scans file T) (Matched env file T) p ss k ↔
      Trail (fun _ p a => SonOf file p a ∨ Overrun file T p a) (CarriesName file) p ss k := by
  induction ss generalizing p with
  | nil => exact Iff.rfl
  | cons s ss ih =>
    have hs := hss s List.mem_cons_self
    simp only [Trail, hs.absolute, scans_absolute h hp]
    refine exists_congr fun a => and_congr_right ?_
    intro ha
    obtain ⟨q, hq, hqa⟩ : ∃ q ∈ T.nodes, SonOf file q a := by
      rcases ha with hson | hover
      · exact ⟨p, hp, hson⟩
      · obtain ⟨b, hb, hba⟩ := hover.sons h hp
        exact ⟨b, h.son_mem hp hb, hba⟩
    rw [matched_iff hs hq hqa,
      ih (fun s hs => hss s (List.mem_cons_of_mem _ hs)) (h.son_mem hq hqa)]

variable (env) in
/-- **What is found**: the documents of the level, and those at the end of a trail that goes too
far. -/
theorem absolute_found (h : DocTree file T) (hfuel : T.nodes.length < fuel) (hne : ss ≠ [])
    (hss : ∀ s ∈ ss, s.IsAbsoluteDocument) (hbare : ¬ isBarePath ⟨ss, ss.length⟩ .absolutePath) :
    ∃ r, findIfFromRoot env fuel file ⟨ss, ss.length⟩ = some r ∧
      ∀ doc, doc ∈ r.documentList ↔ ∃ k, FoundAs file T doc k ∧
        (OnLevel file ss k ∨ OverrunTrail file T 0 ss k) := by
  obtain ⟨ss, s, rfl⟩ : ∃ ss' s', ss = ss' ++ [s'] :=
    ⟨ss.dropLast, ss.getLast hne, (List.dropLast_append_getLast hne).symm⟩
  rw [List.length_append, List.length_singleton] at hbare ⊢
  have hbare' : ∀ pType, ¬ isBarePath ⟨ss ++ [s], ss.length + 1⟩ pType := by
    rintro pType hb
    obtain ⟨-, s', hs', -, rfl, -⟩ := id hb
    rw [(hss s' hs').absolute] at hb
    exact hbare hb
  have hvalue : ∀ s' ∈ ss ++ [s], s'.ByValue := by
    intro s' hs' _ q hq
    rw [(hss s' hs').noPredicate] at hq
    cases hq
  obtain ⟨r, hrun, hdocs⟩ :=
    search_documents env h hfuel hvalue hbare' (hss s (by simp)).document
  refine ⟨r, hrun, ?_⟩
  intro doc
  rw [hdocs]
  refine exists_congr fun k => and_congr_right ?_
  intro _
  rw [trail_iff h hss h.root_mem, trail_or]
  rfl

variable (env) in
/-- **Absolute paths** of document steps without predicates, on any finite tree.  The search comes
back, and its result is the documents of the level of the path exactly when no trail of the path
goes over a document that a step has fetched too late (`OverrunTrail`).  The order of the result and
repetitions are left to `findIfFromRoot_evaluates`. -/
theorem absolute_path (h : DocTree file T) (hfuel : T.nodes.length < fuel) (hne : ss ≠ [])
    (hss : ∀ s ∈ ss, s.IsAbsoluteDocument) (hbare : ¬ isBarePath ⟨ss, ss.length⟩ .absolutePath) :
    ∃ r, findIfFromRoot env fuel file ⟨ss, ss.length⟩ = some r ∧
      ((∀ doc, doc ∈ r.documentList ↔ ∃ k, FoundAs file T doc k ∧ OnLevel file ss k) ↔
        ∀ k, ¬ OverrunTrail file T 0 ss k) := by
  obtain ⟨r, hrun, hdocs⟩ := absolute_found env h hfuel hne hss hbare
  refine ⟨r, hrun, ?_, ?_⟩
  · -- the document it ends at is found, but not on the level
    intro hall k hk
    obtain ⟨e, hlt, he⟩ := Level.root.overrun h hk
    obtain ⟨q, hq, hson⟩ : ∃ q ∈ T.nodes, SonOf file q k := by
      cases he with
      | root => omega
      | son hq hson => exact ⟨_, hq.mem h, hson⟩
    have hfound : FoundAs file T (documentAt file k q) k := ⟨q, hq, hson, rfl⟩
    obtain ⟨k', hfound', hlevel⟩ := (hall _).mp ((hdocs _).mpr ⟨k, hfound, Or.inr hk⟩)
    obtain rfl : k = k' := h.foundAs_same hfound hfound'
    exact hk.not_onLevel h hlevel
  · intro hnone doc
    rw [hdocs]
    refine exists_congr fun k => and_congr_right ?_
    intro _
    simp only [hnone k, or_false]

end Paths

section Records

theorem overrun_nested {file : ZgdbFile RecordPos} {n q : Nat} (h : DocTree file (nested n q))
    {k : Nat} : Overrun file (nested n q) 0 k ↔ k = q := by
  rw [overrun_iff h h.root_mem]
  simp [Forest.sonsOf, Forest.firstBelow, eq_comm]

theorem absoluteStep (name : Name) :
    ∀ s ∈ [(⟨.absolutePath, name, .documentStep, []⟩ : Step)], s.IsAbsoluteDocument := by
  intro s hs
  obtain rfl := List.mem_singleton.mp hs
  exact ⟨rfl, rfl, rfl⟩

/-- In a store with a document `b` below a document `a`, the path of one step `a`. -/
theorem absolute_path_first : ∃ (file : ZgdbFile RecordPos) (n q : Nat) (r : FindIfResult),
    findIfFromRoot sampleSearch 4 file ⟨[⟨.absolutePath, keyA, .documentStep, []⟩], 1⟩ = some r ∧
      ∀ doc, doc ∈ r.documentList ↔ ∃ k, FoundAs file (nested n q) doc k ∧
        OnLevel file [⟨.absolutePath, keyA, .documentStep, []⟩] k := by
  obtain ⟨file, n, q, es, own, -, hs, -, hname⟩ := create_nested recordEnv
  have h := hs.docTree
  obtain ⟨r, hrun, hiff⟩ := absolute_path sampleSearch h (show _ < 4 by simp) (by simp)
    (absoluteStep keyA) (by decide)
  refine ⟨file, n, q, r, hrun, hiff.mpr ?_⟩
  rintro k ⟨a, hcarries, ⟨hover, -⟩ | ⟨-, hrest⟩⟩
  · obtain rfl := (overrun_nested h).mp hover
    exact absurd (hname.symm.trans hcarries) (by decide)
  · exact hrest

/-- In the same store, the path of one step `b` finds a document two levels down. -/
theorem deeper_document_found : ∃ (file : ZgdbFile RecordPos) (n q : Nat) (r : FindIfResult),
    Reaches recordEnv (Call.Clean recordEnv) file ∧ DocTree file (nested n q) ∧
      findIfFromRoot sampleSearch 4 file ⟨[⟨.absolutePath, keyB, .documentStep, []⟩], 1⟩ = some r ∧
      ¬ ∀ doc, doc ∈ r.documentList ↔ ∃ k, FoundAs file (nested n q) doc k ∧
        OnLevel file [⟨.absolutePath, keyB, .documentStep, []⟩] k := by
  obtain ⟨file, n, q, es, own, hreach, hs, -, hname⟩ := create_nested recordEnv
  have h := hs.docTree
  obtain ⟨r, hrun, hdocs⟩ := absolute_found sampleSearch h (show _ < 4 by simp) (by simp)
    (absoluteStep keyB) (by decide)
  have hfound : FoundAs file (nested n q) (documentAt file q n) q :=
    ⟨n, by simp, (nested_nodes h).2, rfl⟩
  have hover : OverrunTrail file (nested n q) 0 [⟨.absolutePath, keyB, .documentStep, []⟩] q :=
    ⟨q, hname, Or.inl ⟨(overrun_nested h).mpr rfl, rfl⟩⟩
  refine ⟨file, n, q, r, hreach, h, hrun, ?_⟩
  intro hall
  obtain ⟨k, hfound', hlevel⟩ := (hall _).mp ((hdocs _).mpr ⟨q, hfound, Or.inr hover⟩)
  obtain rfl := h.foundAs_same hfound hfound'
  exact hover.not_onLevel h hlevel

end Records

end Zgdb
