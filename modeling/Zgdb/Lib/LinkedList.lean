/-
# Singly linked lists on a heap

Nodes are allocated one behind the other and not freed; a pointer is a number, NULL is 0.
`Heap.Chain h head ps` says that the list from `head` consists of the nodes `ps`.  Walking to the
last node and linking a new one there appends to the list (`Chain.append`) and changes nothing that
is not on it.
-/
import Mathlib.Data.List.Nodup
import Mathlib.Data.List.Perm.Subperm
import Mathlib.Logic.Function.Basic

namespace Zgdb.Lib

/-- A node with a link to the next one. -/
structure Node (α : Type) where
  data : α
  next : Nat

/-- Nodes by pointer; those up to `top` are allocated. -/
structure Heap (α : Type) where
  node : Nat → Node α
  top : Nat

namespace Heap

variable {α : Type}

/-- A heap without nodes. -/
def empty (a : α) : Heap α := ⟨fun _ => ⟨a, 0⟩, 0⟩

/-- A new node, at the new `top`, with a NULL link. -/
def malloc (h : Heap α) (a : α) : Heap α where
  node := Function.update h.node (h.top + 1) ⟨a, 0⟩
  top := h.top + 1

/-- Overwrite the data of a node. -/
def setData (h : Heap α) (p : Nat) (a : α) : Heap α where
  node := Function.update h.node p ⟨a, (h.node p).next⟩
  top := h.top

/-- Overwrite the link of a node. -/
def setNext (h : Heap α) (p q : Nat) : Heap α where
  node := Function.update h.node p ⟨(h.node p).data, q⟩
  top := h.top

/-- The last node of the list from `p`; NULL has no link to follow. -/
def last (h : Heap α) : (fuel : Nat) → (p : Nat) → Option Nat
  | 0, _ => none
  | fuel + 1, p =>
    if p = 0 then none
    else if (h.node p).next = 0 then some p
    else h.last fuel (h.node p).next

/-- Link a node behind the last one of a list. -/
def link (h : Heap α) (head p : Nat) : Option (Heap α) :=
  (h.last h.top head).map fun q => h.setNext q p

/-- The data of a list. -/
def read (h : Heap α) : (fuel : Nat) → (p : Nat) → List α
  | 0, _ => []
  | fuel + 1, p => if p = 0 then [] else (h.node p).data :: h.read fuel (h.node p).next

/-- The links from `p` lead through the nodes of a list to NULL. -/
def Linked (h : Heap α) : Nat → List Nat → Prop
  | p, [] => p = 0
  | p, q :: qs => p = q ∧ h.Linked (h.node q).next qs

/-- The list from `head` consists of these nodes, which are allocated and distinct. -/
structure Chain (h : Heap α) (head : Nat) (ps : List Nat) : Prop where
  linked : h.Linked head ps
  inside : ∀ p ∈ ps, 0 < p ∧ p ≤ h.top
  nodup : ps.Nodup

variable {h h' : Heap α} {head p q : Nat} {ps : List Nat} {a : α}

@[simp] theorem malloc_top : (h.malloc a).top = h.top + 1 := rfl

@[simp] theorem malloc_new : (h.malloc a).node (h.top + 1) = ⟨a, 0⟩ := Function.update_self ..

theorem malloc_old (hp : p ≤ h.top) : (h.malloc a).node p = h.node p :=
  Function.update_of_ne (by omega) ..

@[simp] theorem setNext_top : (h.setNext p q).top = h.top := rfl

@[simp] theorem setNext_self : (h.setNext p q).node p = ⟨(h.node p).data, q⟩ :=
  Function.update_self ..

theorem setNext_of_ne {r : Nat} (hr : r ≠ p) : (h.setNext p q).node r = h.node r :=
  Function.update_of_ne hr ..

@[simp] theorem setNext_data (r : Nat) : ((h.setNext p q).node r).data = (h.node r).data := by
  by_cases hr : r = p
  · rw [hr, setNext_self]
  · rw [setNext_of_ne hr]

@[simp] theorem setData_top : (h.setData p a).top = h.top := rfl

@[simp] theorem setData_self : (h.setData p a).node p = ⟨a, (h.node p).next⟩ :=
  Function.update_self ..

theorem setData_of_ne {r : Nat} (hr : r ≠ p) : (h.setData p a).node r = h.node r :=
  Function.update_of_ne hr ..

/-- A list depends on its own nodes. -/
theorem Linked.congr (hl : h.Linked head ps) (hk : ∀ p ∈ ps, (h'.node p).next = (h.node p).next) :
    h'.Linked head ps := by
  induction ps generalizing head with
  | nil => exact hl
  | cons q ps ih =>
    refine ⟨hl.1, ?_⟩
    rw [hk q List.mem_cons_self]
    exact ih hl.2 fun p hp => hk p (List.mem_cons_of_mem _ hp)

theorem Chain.congr (hc : h.Chain head ps) (htop : h.top ≤ h'.top)
    (hk : ∀ p ∈ ps, (h'.node p).next = (h.node p).next) : h'.Chain head ps :=
  ⟨hc.linked.congr hk, fun p hp => ⟨(hc.inside p hp).1, Nat.le_trans (hc.inside p hp).2 htop⟩,
    hc.nodup⟩

/-- The empty list. -/
theorem chain_nil (h : Heap α) : h.Chain 0 [] := ⟨rfl, by simp, List.nodup_nil⟩

/-- The list of one node without a successor. -/
theorem chain_single (h0 : 0 < p) (htop : p ≤ h.top) (hnext : (h.node p).next = 0) :
    h.Chain p [p] :=
  ⟨⟨rfl, hnext⟩, by simp [h0, htop], List.nodup_singleton p⟩

/-- A list that has nodes does not begin with NULL. -/
theorem Chain.head_ne (hc : h.Chain head ps) (hps : ps ≠ []) : head ≠ 0 := by
  obtain ⟨p, ps, rfl⟩ := List.exists_cons_of_ne_nil hps
  have hpos := (hc.inside p List.mem_cons_self).1
  rw [hc.linked.1]
  exact Nat.ne_of_gt hpos

theorem Chain.length_le (hc : h.Chain head ps) : ps.length ≤ h.top := by
  have hsub : ps ⊆ List.range' 1 h.top := by
    intro p hp
    have := hc.inside p hp
    rw [List.mem_range'_1]
    omega
  simpa using (List.subperm_of_subset hc.nodup hsub).length_le

/-- The walk ends at the last node. -/
theorem Linked.last (hl : h.Linked head (ps ++ [q])) (h0 : ∀ p ∈ ps ++ [q], 0 < p) {fuel : Nat}
    (hf : ps.length < fuel) : h.last fuel head = some q := by
  induction ps generalizing head fuel with
  | nil =>
    obtain ⟨fuel, rfl⟩ := Nat.exists_eq_succ_of_ne_zero (Nat.ne_of_gt hf)
    obtain ⟨rfl, hnext⟩ := hl
    have hpos := h0 head (by simp)
    have hnext' : (h.node head).next = 0 := hnext
    simp [Heap.last, hnext', Nat.ne_of_gt hpos]
  | cons p ps ih =>
    obtain ⟨fuel, rfl⟩ := Nat.exists_eq_succ_of_ne_zero (Nat.ne_of_gt (Nat.zero_lt_of_lt hf))
    obtain ⟨rfl, hrest⟩ := hl
    have hpos := h0 head (by simp)
    have hrec := ih hrest (fun r hr => h0 r (List.mem_cons_of_mem _ hr))
      (Nat.lt_of_succ_lt_succ hf)
    have hnext : (h.node head).next ≠ 0 := by
      cases ps with
      | nil => exact hrest.1 ▸ Nat.ne_of_gt (h0 q (by simp))
      | cons r ps => exact hrest.1 ▸ Nat.ne_of_gt (h0 r (by simp))
    simp [Heap.last, hnext, Nat.ne_of_gt hpos, hrec]

theorem Linked.setNext (hl : h.Linked head (ps ++ [q])) (hnodup : (ps ++ [q]).Nodup)
    (hp : p ∉ ps ++ [q]) (hnext : (h.node p).next = 0) :
    (h.setNext q p).Linked head (ps ++ [q] ++ [p]) := by
  induction ps generalizing head with
  | nil =>
    obtain ⟨rfl, -⟩ := hl
    have hne : p ≠ head := by simpa using hp
    refine ⟨rfl, ?_, ?_⟩
    · rw [setNext_self]
    · rw [setNext_of_ne hne]
      exact hnext
  | cons r ps ih =>
    obtain ⟨rfl, hrest⟩ := hl
    rw [List.cons_append, List.nodup_cons] at hnodup
    have hne : head ≠ q := fun he => hnodup.1 (by simp [he])
    refine ⟨rfl, ?_⟩
    rw [setNext_of_ne hne]
    exact ih hrest hnodup.2 fun hmem => hp (List.mem_cons_of_mem _ hmem)

/-- **A node is linked behind a list.** -/
theorem Chain.append (hc : h.Chain head (ps ++ [q])) (hp0 : 0 < p) (hp : p ≤ h.top)
    (hnew : p ∉ ps ++ [q]) (hnext : (h.node p).next = 0) :
    h.link head p = some (h.setNext q p) ∧ (h.setNext q p).Chain head (ps ++ [q] ++ [p]) := by
  have hlen := hc.length_le
  rw [List.length_append, List.length_singleton] at hlen
  have hlast := hc.linked.last (fun r hr => (hc.inside r hr).1) (show ps.length < h.top by omega)
  refine ⟨by rw [link, hlast, Option.map_some], hc.linked.setNext hc.nodup hnew hnext, ?_, ?_⟩
  · intro r hr
    rcases List.mem_append.mp hr with hr | hr
    · exact hc.inside r hr
    · rw [List.mem_singleton.mp hr]
      exact ⟨hp0, hp⟩
  · rw [List.nodup_append]
    refine ⟨hc.nodup, List.nodup_singleton p, ?_⟩
    rintro r hr s hs rfl
    rw [List.mem_singleton] at hs
    exact hnew (hs ▸ hr)

theorem Linked.read (hl : h.Linked head ps) (h0 : ∀ p ∈ ps, 0 < p) {fuel : Nat}
    (hf : ps.length ≤ fuel) : h.read fuel head = ps.map fun p => (h.node p).data := by
  induction ps generalizing head fuel with
  | nil =>
    have hhead : head = 0 := hl
    cases fuel <;> simp [Heap.read, hhead]
  | cons p ps ih =>
    obtain ⟨fuel, rfl⟩ := Nat.exists_eq_succ_of_ne_zero (show fuel ≠ 0 by simp at hf; omega)
    obtain ⟨rfl, hrest⟩ := hl
    have hpos := h0 head (by simp)
    have hrec := ih hrest (fun r hr => h0 r (List.mem_cons_of_mem _ hr))
      (Nat.le_of_succ_le_succ hf)
    simp [Heap.read, Nat.ne_of_gt hpos, hrec]

/-- **What is read are the data of the nodes.** -/
theorem Chain.read (hc : h.Chain head ps) :
    h.read h.top head = ps.map fun p => (h.node p).data :=
  hc.linked.read (fun p hp => (hc.inside p hp).1) hc.length_le

end Heap

end Zgdb.Lib
