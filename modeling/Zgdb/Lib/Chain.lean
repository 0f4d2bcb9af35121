/-
# Chains of linked cells

A heap of cells, each with some data and the place of the next cell.  There is no terminator in
the links: a chain is a start and a NUMBER of cells, and the link of its last cell may lead
anywhere.  `path` is the places a chain visits.

`rewrite` runs along a chain and changes the data only; `setNext` changes one link.  The rules
say what a chain looks like after either, and `path_append` splices two chains.  Two chains that
visit no common place do not see each other's changes (`path_congr`, `rewrite_of_notMem`).
-/
import Mathlib.Data.List.Basic
import Mathlib.Data.List.Nodup
import Mathlib.Logic.Function.Basic

namespace Zgdb.Lib

/-- A cell of a chain. -/
structure Link (S D : Type) where
  data : D
  next : S
deriving DecidableEq, Repr

namespace Chain

variable {S D : Type}

/-- The places of a chain of `n` cells from `s`. -/
def path (h : S → Link S D) : Nat → S → List S
  | 0, _ => []
  | n + 1, s => s :: path h n (h s).next

/-- The place a chain of `n` cells from `s` leads to. -/
def after (h : S → Link S D) : Nat → S → S
  | 0, s => s
  | n + 1, s => after h n (h s).next

/-- The data of a chain. -/
def read (h : S → Link S D) (n : Nat) (s : S) : List D := (path h n s).map fun x => (h x).data

@[simp] theorem path_zero (h : S → Link S D) (s : S) : path h 0 s = [] := rfl
@[simp] theorem path_succ (h : S → Link S D) (n : Nat) (s : S) :
    path h (n + 1) s = s :: path h n (h s).next := rfl

@[simp] theorem length_path (h : S → Link S D) : ∀ (n : Nat) (s : S), (path h n s).length = n
  | 0, _ => rfl
  | n + 1, s => by rw [path_succ, List.length_cons, length_path h n]

/-- **Splicing**: a chain, then the chain from where it leads. -/
theorem path_append (h : S → Link S D) : ∀ (m n : Nat) (s : S),
    path h (m + n) s = path h m s ++ path h n (after h m s)
  | 0, n, s => by rw [Nat.zero_add]; rfl
  | m + 1, n, s => by
    rw [Nat.add_right_comm, path_succ, path_succ, path_append h m n]
    rfl

theorem read_append (h : S → Link S D) (m n : Nat) (s : S) :
    read h (m + n) s = read h m s ++ read h n (after h m s) := by
  rw [read, path_append, List.map_append]
  rfl

/-- The last cell of a chain holds the link to where the chain leads. -/
theorem after_succ (h : S → Link S D) : ∀ (n : Nat) (s : S),
    after h (n + 1) s = (h (after h n s)).next
  | 0, _ => rfl
  | n + 1, s => after_succ h n (h s).next

theorem path_succ_last (h : S → Link S D) (n : Nat) (s : S) :
    path h (n + 1) s = path h n s ++ [after h n s] := by
  rw [path_append]
  rfl

theorem after_mem_path (h : S → Link S D) {m n : Nat} (s : S) (hmn : m < n) :
    after h m s ∈ path h n s := by
  obtain ⟨k, rfl⟩ : ∃ k, n = m + 1 + k := ⟨n - (m + 1), by omega⟩
  rw [path_append, path_succ_last]
  simp

theorem path_prefix (h : S → Link S D) {m n : Nat} (s : S) (hmn : m ≤ n) :
    path h m s <+: path h n s := by
  obtain ⟨k, rfl⟩ : ∃ k, n = m + k := ⟨n - m, by omega⟩
  rw [path_append]
  exact List.prefix_append _ _

/-- Heaps with the same links before the last cell have the same chain. -/
theorem path_congr {h h' : S → Link S D} : ∀ {n : Nat} {s : S},
    (∀ m, m + 1 < n → (h' (after h m s)).next = (h (after h m s)).next) →
    path h' n s = path h n s
  | 0, _, _ => rfl
  | 1, _, _ => rfl
  | n + 2, s, heq => by
    have h0 : (h' s).next = (h s).next := heq 0 (by omega)
    rw [path_succ, path_succ h, h0]
    rw [path_congr (h := h) (n := n + 1) fun m hm => heq (m + 1) (by omega)]

theorem after_congr {h h' : S → Link S D} : ∀ {n : Nat} {s : S},
    (∀ m < n, (h' (after h m s)).next = (h (after h m s)).next) →
    after h' n s = after h n s
  | 0, _, _ => rfl
  | n + 1, s, heq => by
    have h0 : (h' s).next = (h s).next := heq 0 (Nat.succ_pos n)
    show after h' n (h' s).next = after h n (h s).next
    rw [h0]
    exact after_congr fun m hm => heq (m + 1) (by omega)

/-- Heaps that agree on the places of a chain read the same from it. -/
theorem read_congr {h h' : S → Link S D} {n : Nat} {s : S}
    (heq : ∀ x ∈ path h n s, h' x = h x) : read h' n s = read h n s := by
  have hp : path h' n s = path h n s :=
    path_congr fun m hm => congrArg Link.next (heq _ (after_mem_path h s (by omega)))
  rw [read, read, hp]
  exact List.map_congr_left fun x hx => congrArg Link.data (heq x hx)

/-- Heaps with the same links on a chain have the same chain. -/
theorem path_congr_on {h h' : S → Link S D} {n : Nat} {s : S}
    (heq : ∀ x ∈ path h n s, (h' x).next = (h x).next) : path h' n s = path h n s :=
  path_congr fun _ hm => heq _ (after_mem_path h s (by omega))

/-- A sequence of linked places is a chain. -/
theorem path_of_links {h : S → Link S D} (f : Nat → S) {n : Nat}
    (hf : ∀ i, i + 1 < n → (h (f i)).next = f (i + 1)) : path h n (f 0) = (List.range n).map f := by
  induction n generalizing f with
  | zero => rfl
  | succ n ih =>
    rw [path_succ, List.range_succ_eq_map, List.map_cons, List.map_map]
    cases n with
    | zero => rfl
    | succ n =>
      rw [hf 0 (by omega)]
      congr 1
      exact ih (fun i => f (i + 1)) fun i hi => hf (i + 1) (by omega)

/-- A sequence of linked places is where the chain leads. -/
theorem after_of_links {h : S → Link S D} (f : Nat → S) {n : Nat}
    (hf : ∀ i < n, (h (f i)).next = f (i + 1)) : after h n (f 0) = f n := by
  induction n with
  | zero => rfl
  | succ n ih =>
    rw [after_succ, ih fun i hi => hf i (by omega)]
    exact hf n (Nat.lt_succ_self n)

variable [DecidableEq S]

/-- Change the data along a chain. -/
def rewrite : (S → Link S D) → List (D → D) → S → (S → Link S D)
  | h, [], _ => h
  | h, f :: fs, s =>
    rewrite (Function.update h s { h s with data := f (h s).data }) fs (h s).next

/-- Change one link. -/
def setNext (h : S → Link S D) (s t : S) : S → Link S D :=
  Function.update h s { h s with next := t }

/-- Rewriting changes no link. -/
@[simp] theorem rewrite_next : ∀ (h : S → Link S D) (fs : List (D → D)) (s x : S),
    (rewrite h fs s x).next = (h x).next
  | _, [], _, _ => rfl
  | h, f :: fs, s, x => by
    rw [rewrite, rewrite_next]
    by_cases hx : x = s
    · subst hx; rw [Function.update_self]
    · rw [Function.update_of_ne hx]

@[simp] theorem path_rewrite (h : S → Link S D) (fs : List (D → D)) (s : S) (n : Nat) (t : S) :
    path (rewrite h fs s) n t = path h n t :=
  path_congr fun _ _ => rewrite_next h fs s _

@[simp] theorem after_rewrite (h : S → Link S D) (fs : List (D → D)) (s : S) (n : Nat) (t : S) :
    after (rewrite h fs s) n t = after h n t :=
  after_congr fun _ _ => rewrite_next h fs s _

theorem path_update_data (h : S → Link S D) (s : S) (d : D) (n : Nat) (t : S) :
    path (Function.update h s { h s with data := d }) n t = path h n t := by
  refine path_congr ?_
  intro m _
  by_cases hx : after h m t = s
  · rw [hx, Function.update_self]
  · rw [Function.update_of_ne hx]

/-- Rewriting changes nothing off the chain. -/
theorem rewrite_of_notMem : ∀ {h : S → Link S D} {fs : List (D → D)} {s x : S},
    x ∉ path h fs.length s → rewrite h fs s x = h x
  | _, [], _, _, _ => rfl
  | h, f :: fs, s, x, hx => by
    rw [List.length_cons, path_succ, List.mem_cons, not_or] at hx
    rw [rewrite, rewrite_of_notMem, Function.update_of_ne hx.1]
    rw [path_update_data]
    exact hx.2

/-- **What a rewritten chain reads**: its old data, changed cell by cell. -/
theorem read_rewrite : ∀ {h : S → Link S D} {fs : List (D → D)} {s : S},
    (path h fs.length s).Nodup →
    read (rewrite h fs s) fs.length s = List.zipWith (fun f d => f d) fs (read h fs.length s)
  | _, [], _, _ => rfl
  | h, f :: fs, s, hn => by
    rw [List.length_cons, path_succ, List.nodup_cons] at hn
    have hs : rewrite h (f :: fs) s s = { h s with data := f (h s).data } := by
      rw [rewrite, rewrite_of_notMem, Function.update_self]
      rw [path_update_data]
      exact hn.1
    have hp : ∀ n t, path (Function.update h s { h s with data := f (h s).data }) n t
        = path h n t :=
      path_update_data h s _
    have hn' : (path (Function.update h s { h s with data := f (h s).data }) fs.length
        (h s).next).Nodup := by rw [hp]; exact hn.2
    have ih := read_rewrite hn'
    have hr : read (Function.update h s { h s with data := f (h s).data }) fs.length (h s).next
        = read h fs.length (h s).next :=
      read_congr fun x hx => Function.update_of_ne (by rintro rfl; exact hn.1 hx) _ _
    rw [hr] at ih
    simp only [read, List.length_cons, path_rewrite, path_succ, List.map_cons,
      List.zipWith_cons_cons,
      hs] at ih ⊢
    rw [rewrite, ← ih]
    simp only [hp]

/-- Rewriting looks at nothing but the chain. -/
theorem rewrite_congr {V : S → Prop} {h h' : S → Link S D} {fs : List (D → D)} {s : S}
    (heq : ∀ x, V x → h' x = h x) (hp : ∀ x ∈ path h fs.length s, V x) :
    ∀ x, V x → rewrite h' fs s x = rewrite h fs s x := by
  induction fs generalizing h h' s with
  | nil => exact heq
  | cons f fs ih =>
    have hs : h' s = h s := heq s (hp s List.mem_cons_self)
    rw [rewrite, rewrite, hs]
    refine ih ?_ ?_
    · intro x hx
      by_cases hxs : x = s
      · rw [hxs, Function.update_self, Function.update_self]
      · rw [Function.update_of_ne hxs, Function.update_of_ne hxs, heq x hx]
    · intro x hx
      rw [path_update_data] at hx
      exact hp x (List.mem_cons_of_mem _ hx)

theorem setNext_self (h : S → Link S D) (s t : S) :
    setNext h s t s = { h s with next := t } := Function.update_self ..

theorem setNext_of_ne {h : S → Link S D} {s t x : S} (hx : x ≠ s) : setNext h s t x = h x :=
  Function.update_of_ne hx _ _

theorem setNext_congr {h h' : S → Link S D} {s t x : S} (hs : h' s = h s) (hx : h' x = h x) :
    setNext h' s t x = setNext h s t x := by
  by_cases hxs : x = s
  · rw [hxs, setNext_self, setNext_self, hs]
  · rw [setNext_of_ne hxs, setNext_of_ne hxs, hx]

@[simp] theorem setNext_data (h : S → Link S D) (s t x : S) :
    (setNext h s t x).data = (h x).data := by
  by_cases hx : x = s
  · subst hx; rw [setNext_self]
  · rw [setNext_of_ne hx]

/-- A chain keeps its places when the link of its last cell changes. -/
theorem path_setNext_last {h : S → Link S D} {n : Nat} {s t : S}
    (hn : (path h (n + 1) s).Nodup) : path (setNext h (after h n s) t) (n + 1) s
      = path h (n + 1) s := by
  refine path_congr ?_
  intro m hm
  rw [setNext_of_ne]
  rw [path_succ_last, List.nodup_append] at hn
  intro he
  exact hn.2.2 _ (after_mem_path h s (by omega : m < n)) _ (List.mem_singleton.mpr rfl) he

/-- **A chain that grows**: its data is rewritten, and its last link leads to another chain. -/
theorem grow {h h' : S → Link S D} {fs : List (D → D)} {k : Nat} {s t : S}
    (hlen : fs.length = k + 1) (hn : (path h (k + 1) s).Nodup)
    (heq : ∀ x ∈ path h (k + 1) s, h' x = setNext (rewrite h fs s) (after h k s) t x) (n : Nat) :
    path h' (k + 1 + n) s = path h (k + 1) s ++ path h' n t ∧
      read h' (k + 1 + n) s
        = List.zipWith (fun f d => f d) fs (read h (k + 1) s) ++ read h' n t := by
  have hg : path (setNext (rewrite h fs s) (after h k s) t) (k + 1) s = path h (k + 1) s := by
    have := path_setNext_last (h := rewrite h fs s) (t := t) (by rw [path_rewrite]; exact hn)
    rwa [path_rewrite, after_rewrite] at this
  have hp : path h' (k + 1) s = path h (k + 1) s := by
    rw [← hg]
    refine path_congr_on ?_
    intro x hx
    rw [heq x (hg ▸ hx)]
  have hafter : after h' (k + 1) s = t := by
    have hk : after h' k s = after h k s := by
      refine after_congr ?_
      intro m hm
      have hx : after h m s ∈ path h (k + 1) s := after_mem_path h s (by omega)
      rw [heq _ hx, setNext_of_ne, rewrite_next]
      rw [path_succ_last, List.nodup_append] at hn
      exact fun he => hn.2.2 _ (after_mem_path h s hm) _ (List.mem_singleton.mpr rfl) he
    rw [after_succ, hk, heq _ (after_mem_path h s (Nat.lt_succ_self k)), setNext_self]
  refine ⟨by rw [path_append, hp, hafter], ?_⟩
  have hread : read h' (k + 1) s = read (rewrite h fs s) (k + 1) s := by
    rw [read, read, hp, path_rewrite]
    refine List.map_congr_left ?_
    intro x hx
    rw [heq x hx, setNext_data]
  rw [read_append, hafter, hread, ← hlen, read_rewrite (by rw [hlen]; exact hn)]

end Chain

end Zgdb.Lib
