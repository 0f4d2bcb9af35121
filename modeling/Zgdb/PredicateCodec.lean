/-
# Predicates across the connection

A predicate chain is written by `zpathPredicateToXml` of the client and read by
`createPredicateFromXml` of the server.  It arrives as it was sent exactly when it has no
element-to-element predicate, whose operands are written under `element1` and `element2` and looked
for under `key1` and `key2`, no key longer than 12 bytes, and a length that fits into 32 bits
(`predicate_codec`).
-/
import Zgdb.Decode
import Zgdb.Encode

namespace Zgdb

/-! ## 1. Corresponding values

The kinds of predicates on both sides, and the condition under which the server can read one. -/

/-- The operator of the server with the name of the client's. -/
def AstCompOperator.onServer : AstCompOperator → CompOperator
  | .equals => .equals
  | .notEquals => .notEquals
  | .greater => .greater
  | .less => .less
  | .eqGreater => .eqGreater
  | .eqLess => .eqLess
  | .contains => .contains

/-- The connector of the server with the name of the client's. -/
def AstLogOperator.onServer : AstLogOperator → LogOperator
  | .none => .none
  | .and => .and
  | .or => .or

/-- The same kind with the same operands. -/
def SameValue : AstPredicateValue → PredicateValue → Prop
  | .byDocumentNumber index, .byDocumentNumber index' => index' = index
  | .byElementValue key operator input, .byElementValue key' operator' input' =>
    key'.chars = key.chars ∧ operator' = operator.onServer ∧ input' = input
  | .byElement key1 operator key2, .byElement key1' operator' key2' =>
    key1'.chars = key1.chars ∧ operator' = operator.onServer ∧ key2'.chars = key2.chars
  | _, _ => False

/-- The same predicate on both sides. -/
structure SamePredicate (a : AstPredicate) (p : Predicate) : Prop where
  logOp : p.logOp = a.logOp.onServer
  isInverted : p.isInverted = a.isInverted
  value : SameValue a.value p.value

/-- A document number is at most `INT32_MAX`. -/
def AstPredicate.Numbered (a : AstPredicate) : Prop :=
  ∀ index, a.value = .byDocumentNumber index → index.toNat ≤ 2 ^ 31 - 1

/-- What the server can read: no element-to-element predicate, and a key that fits. -/
def AstPredicate.Readable (a : AstPredicate) : Prop :=
  match a.value with
  | .byDocumentNumber _ => True
  | .byElementValue key _ _ => key.chars.length ≤ 12
  | .byElement _ _ _ => False

/-! ## 2. Attributes

Each attribute of a predicate comes back, the numbers through their decimal texts. -/

@[simp] theorem xmlGetProp_cons (n k k' : String) (v : CString) (ps : List (String × CString))
    (c : List XmlNode) : xmlGetProp (.element n ((k, v) :: ps) c) k'
      = if k = k' then some v else xmlGetProp (.element n ps c) k' := by
  by_cases h : k = k' <;> simp [xmlGetProp, h]

@[simp] theorem xmlGetProp_nil (n k : String) (c : List XmlNode) :
    xmlGetProp (.element n [] c) k = none := rfl

theorem compOperator_prop (op : AstCompOperator) :
    zpathCompOperatorToXml op = ("compOperator", (zpathCompOperatorToXml op).2) := by
  cases op <;> rfl

theorem logOp_prop (l : AstLogOperator) : zpathLogOpToXml l = ("logOp", (zpathLogOpToXml l).2) := by
  cases l <;> rfl

/-- An operator is read as it was written. -/
theorem getCompOperator_eq {node : XmlNode} (op : AstCompOperator)
    (h : xmlGetProp node "compOperator" = some (zpathCompOperatorToXml op).2) :
    getCompOperator node = some op.onServer := by
  simp only [getCompOperator, h]
  cases op <;> decide

/-- A connector is read as it was written. -/
theorem getLogOp_eq {node : XmlNode} {l : AstLogOperator}
    (h : xmlGetProp node "logOp" = some (zpathLogOpToXml l).2) :
    getLogOp node = some l.onServer := by
  simp only [getLogOp, h]
  cases l <;> decide

theorem inverted_eq (b : Bool) :
    decide (some (xmlChar (if b then "1" else "0")) = some (xmlChar "1")) = b := by
  cases b <;> decide

/-! ## 3. One predicate

A predicate is decoded to the one that was encoded, or not at all. -/

theorem strcpyName_of_short {s : CString} (h : s.chars.length ≤ 12) :
    strcpyName s = some ⟨s.chars, h, s.noNul⟩ :=
  dif_pos h

theorem ofInt_toNat (i : UInt64) : UInt64.ofInt (i.toNat : Int) = i := by
  have hlt := i.toNat_lt
  have hmod : ((i.toNat : Int) % 2 ^ 64).toNat = i.toNat := by omega
  rw [UInt64.ofInt, hmod, UInt64.ofNat_toNat]

/-- The connector and the inversion are read as they were written. -/
theorem getPredicate_eq (a : AstPredicate) : getPredicate (zpathPredicateElementToXml a)
    = (getPredicateValue (zpathPredicateElementToXml a)).map
        fun v => ⟨a.logOp.onServer, a.isInverted, v⟩ := by
  have hlog : getLogOp (zpathPredicateElementToXml a) = some a.logOp.onServer := by
    apply getLogOp_eq
    rw [zpathPredicateElementToXml, logOp_prop]
    simp
  have hinv : decide (xmlGetProp (zpathPredicateElementToXml a) "inverted"
      = some (xmlChar "1")) = a.isInverted := by
    rw [zpathPredicateElementToXml, logOp_prop]
    simpa using inverted_eq a.isInverted
  rw [getPredicate, hlog, hinv]
  cases getPredicateValue (zpathPredicateElementToXml a) <;> rfl

/-- **A readable predicate is read as it was written.** -/
theorem getPredicateValue_readable {a : AstPredicate} (hn : a.Numbered) (hr : a.Readable) :
    ∃ v, getPredicateValue (zpathPredicateElementToXml a) = some v ∧ SameValue a.value v := by
  obtain ⟨logOp, isInverted, value⟩ := a
  rw [zpathPredicateElementToXml, logOp_prop]
  cases value with
  | byDocumentNumber index =>
    have hindex := str2long_sprintfZu (hn index rfl)
    refine ⟨.byDocumentNumber index, ?_, rfl⟩
    simp [getPredicateValue, zpathPredicateValueToXml, hindex, ofInt_toNat]
  | byElementValue key operator input =>
    have hkey : key.chars.length ≤ 12 := hr
    refine ⟨.byElementValue ⟨key.chars, hkey, key.noNul⟩ operator.onServer input, ?_, rfl, rfl, rfl⟩
    have hne : xmlChar "BY_ELEMENT_VALUE" ≠ xmlChar "BY_DOCUMENT_NUMBER" := by decide
    simp only [zpathPredicateValueToXml]
    rw [compOperator_prop operator, getPredicateValue, getCompOperator_eq operator (by simp)]
    simp [hne, strcpyName_of_short hkey]
  | byElement key1 operator key2 => exact hr.elim

/-- A predicate that is not readable is not read. -/
theorem getPredicateValue_unreadable {a : AstPredicate} (hr : ¬ a.Readable) :
    getPredicateValue (zpathPredicateElementToXml a) = none := by
  obtain ⟨logOp, isInverted, value⟩ := a
  rw [zpathPredicateElementToXml, logOp_prop]
  cases value with
  | byDocumentNumber index => exact absurd trivial hr
  | byElementValue key operator input =>
    have hkey : strcpyName key = none := dif_neg hr
    have hne : xmlChar "BY_ELEMENT_VALUE" ≠ xmlChar "BY_DOCUMENT_NUMBER" := by decide
    simp only [zpathPredicateValueToXml]
    rw [compOperator_prop operator]
    simp [getPredicateValue, hne, hkey]
  | byElement key1 operator key2 =>
    have hne : xmlChar "BY_ELEMENT" ≠ xmlChar "BY_DOCUMENT_NUMBER" := by decide
    have hne' : xmlChar "BY_ELEMENT" ≠ xmlChar "BY_ELEMENT_VALUE" := by decide
    simp only [zpathPredicateValueToXml]
    rw [compOperator_prop operator]
    simp [getPredicateValue, hne, hne']

/-! ## 4. Chains

The loop reads as many predicates as the attribute `size` says. -/

/-- A chain is read element by element. -/
theorem getPredicates_readable {chain : List AstPredicate} (hn : ∀ a ∈ chain, a.Numbered)
    (hr : ∀ a ∈ chain, a.Readable) :
    ∃ ps, getPredicates chain.length (chain.map zpathPredicateElementToXml) = some ps ∧
      List.Forall₂ SamePredicate chain ps := by
  induction chain with
  | nil => exact ⟨[], rfl, .nil⟩
  | cons a chain ih =>
    obtain ⟨ps, hps, hsame⟩ := ih (fun b hb => hn b (List.mem_cons_of_mem _ hb))
      fun b hb => hr b (List.mem_cons_of_mem _ hb)
    obtain ⟨v, hv, hvsame⟩ :=
      getPredicateValue_readable (hn a List.mem_cons_self) (hr a List.mem_cons_self)
    refine ⟨⟨a.logOp.onServer, a.isInverted, v⟩ :: ps, ?_, .cons ⟨rfl, rfl, hvsame⟩ hsame⟩
    simp [getPredicates, getPredicate_eq, hv, hps]

/-- What is read was readable. -/
theorem readable_of_getPredicates {chain : List AstPredicate} {ps : List Predicate}
    (h : getPredicates chain.length (chain.map zpathPredicateElementToXml) = some ps) :
    ∀ a ∈ chain, a.Readable := by
  induction chain generalizing ps with
  | nil => simp
  | cons a chain ih =>
    intro b hb
    by_cases ha : a.Readable
    · rcases List.mem_cons.mp hb with rfl | hb
      · exact ha
      · cases hrest : getPredicates chain.length (chain.map zpathPredicateElementToXml) with
        | none => simp [getPredicates, hrest] at h
        | some rest => exact ih hrest b hb
    · simp [getPredicates, getPredicate_eq, getPredicateValue_unreadable ha] at h

/-- **A predicate chain arrives as it was sent** exactly when its length fits into 32 bits and each
predicate is readable: no comparison of two elements, and no key that is longer than 12 bytes.  The
decoder fails for the first predicate that is not readable, wherever it stands in the chain. -/
theorem predicate_codec {chain : List AstPredicate} (hne : chain ≠ [])
    (hn : ∀ a ∈ chain, a.Numbered) :
    (∃ ps, createPredicateFromXml (zpathPredicateToXml chain) = some ps ∧
      List.Forall₂ SamePredicate chain ps) ↔
    chain.length ≤ 2 ^ 31 - 1 ∧ ∀ a ∈ chain, a.Readable := by
  have hchildren : (zpathPredicateToXml chain).children ≠ [] := by
    simpa [zpathPredicateToXml, XmlNode.children] using hne
  by_cases hlen : chain.length ≤ 2 ^ 31 - 1
  · have hsize : sizeProp (zpathPredicateToXml chain) = some (chain.length : Int) := by
      simp [sizeProp, zpathPredicateToXml, str2long_sprintfZu hlen]
    have heq : createPredicateFromXml (zpathPredicateToXml chain)
        = (getPredicates chain.length (chain.map zpathPredicateElementToXml)).bind
            fun ps => if ps = [] then none else some ps := by
      rw [createPredicateFromXml, hsize]
      simp only [Option.bind_eq_bind, Option.bind_some, if_neg hchildren, Int.toNat_natCast]
      rfl
    constructor
    · rintro ⟨ps, hps, -⟩
      rw [heq] at hps
      obtain ⟨ps', hps', -⟩ := Option.bind_eq_some_iff.mp hps
      exact ⟨hlen, readable_of_getPredicates hps'⟩
    · rintro ⟨-, hr⟩
      obtain ⟨ps, hps, hsame⟩ := getPredicates_readable hn hr
      have hps0 : ps ≠ [] := by
        rintro rfl
        exact hne (List.forall₂_nil_right_iff.mp hsame)
      exact ⟨ps, by rw [heq, hps, Option.bind_some, if_neg hps0], hsame⟩
  · refine iff_of_false ?_ fun h => hlen h.1
    rintro ⟨ps, hps, -⟩
    have hsize : sizeProp (zpathPredicateToXml chain) = some 0 := by
      simp [sizeProp, zpathPredicateToXml, str2long_overflow (Nat.lt_of_not_le hlen)]
    rw [createPredicateFromXml, hsize] at hps
    simp [hchildren, getPredicates] at hps

/-- A chain of two, the first inverted. -/
theorem predicate_codec_pair : ∃ ps, createPredicateFromXml (zpathPredicateToXml
      [⟨.none, true, .byDocumentNumber 1⟩,
        ⟨.and, false, .byElementValue (xmlChar "key") .equals (xmlChar "a")⟩]) = some ps ∧
    List.Forall₂ SamePredicate [⟨.none, true, .byDocumentNumber 1⟩,
      ⟨.and, false, .byElementValue (xmlChar "key") .equals (xmlChar "a")⟩] ps :=
  (predicate_codec (by simp) (by
      simp only [List.mem_cons, List.not_mem_nil, or_false]
      rintro a (rfl | rfl) index h
      · cases h
        decide
      · cases h)).mpr ⟨by decide, by
    simp only [List.mem_cons, List.not_mem_nil, or_false]
    rintro a (rfl | rfl)
    · trivial
    · exact (by decide : (xmlChar "key").chars.length ≤ 12)⟩

/-- An element-to-element predicate does not arrive. -/
theorem element_predicate_lost : ¬ ∃ ps, createPredicateFromXml (zpathPredicateToXml
      [⟨.none, false, .byElement (xmlChar "a") .equals (xmlChar "b")⟩]) = some ps ∧
    List.Forall₂ SamePredicate
      [⟨.none, false, .byElement (xmlChar "a") .equals (xmlChar "b")⟩] ps := by
  rintro ⟨ps, hps, -⟩
  rw [createPredicateFromXml] at hps
  obtain ⟨s, hs, hps⟩ := Option.bind_eq_some_iff.mp hps
  have hone : s = 1 := by
    have h := str2long_sprintfZu (show 1 ≤ 2 ^ 31 - 1 by decide)
    simp [sizeProp, zpathPredicateToXml, h] at hs
    exact hs.symm
  have hr : ¬ (⟨.none, false, .byElement (xmlChar "a") .equals (xmlChar "b")⟩ :
    AstPredicate).Readable := id
  subst hone
  simp [zpathPredicateToXml, XmlNode.children, getPredicates, getPredicate_eq,
    getPredicateValue_unreadable hr] at hps

end Zgdb
