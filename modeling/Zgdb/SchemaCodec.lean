/-
# Schemas across the connection

The schema of an ADD request is written by `zpathToXml` and read by `executeAddFromXml`.  Integers
and strings arrive.  The client writes a boolean with `%d`, the server takes `true` for true and
everything else for false: a schema arrives as it was sent exactly when no boolean of it is true
(`schema_codec`).
-/
import Mathlib.Data.List.Forall2
import Zgdb.PredicateCodec

namespace Zgdb

/-! ## 1. Corresponding elements

What the server stores for an element of the client, and when it is the same. -/

/-- The same type with the same value. -/
def SameSchemaValue : AstSchemaValue → ElementValue → Prop
  | .int a, .int v => v = a
  | .double a, .double v => v = a
  | .boolean a, .boolean v => v = if a then 1 else 0
  | .string a, .text v => v = Text.ofString a
  | _, _ => False

/-- The same schema element on both sides. -/
structure SameElement (a : AstAddSchema) (e : Element) : Prop where
  key : e.key.chars = a.name.chars
  value : SameSchemaValue a.value e.value

/-- The schema that the server builds for an ADD request is complete and is the one that the client
sent. -/
def SchemaArrives (sprintfF : UInt64 → CString) (strtod : CString → StrtodResult)
    (docName : CString) (first : List AstAddSchema) (path : AstPath) : Prop :=
  ∃ node schema, findNodeByName [zpathToXml sprintfF ⟨.add docName first, path⟩] "schema"
    = some node ∧
    createSchemaFromXml strtod node = some schema ∧
    List.Forall₂ SameElement first schema.elements ∧ schema.Complete

/-- An INT, BOOL or STR element with a key the server takes.  Doubles are left out, since what comes
back of one depends on `%f`, a parameter.  The key `id` is refused by the schema, and a longer key
overruns its array. -/
structure AstAddSchema.Valid (a : AstAddSchema) : Prop where
  noDouble : ∀ d, a.value ≠ .double d
  short : a.name.chars.length ≤ 12
  notId : a.name.chars ≠ Name.id.chars

/-- What becomes of a value: every boolean arrives as false. -/
def AstSchemaValue.received : AstSchemaValue → ElementValue
  | .int v => .int v
  | .double v => .double v
  | .boolean _ => .boolean 0
  | .string v => .text (Text.ofString v)

/-- The element that the server makes. -/
structure ReceivedAs (a : AstAddSchema) (e : Element) : Prop where
  key : e.key.chars = a.name.chars
  value : e.value = a.value.received

variable (sprintfF : UInt64 → CString) (strtod : CString → StrtodResult)
  {first : List AstAddSchema} {a : AstAddSchema} {e : Element} {s : DocumentSchema}

/-- **A received element is the one that was sent** unless it is a true boolean. -/
theorem ReceivedAs.same_iff (h : ReceivedAs a e) (hd : ∀ d, a.value ≠ .double d) :
    SameElement a e ↔ a.value ≠ .boolean true := by
  obtain ⟨hkey, hvalue⟩ := h
  constructor
  · rintro ⟨-, hsame⟩ htrue
    rw [hvalue, htrue] at hsame
    exact absurd hsame (by simp [AstSchemaValue.received, SameSchemaValue])
  · intro hne
    refine ⟨hkey, ?_⟩
    rw [hvalue]
    cases hv : a.value with
    | int integer => rfl
    | double dbl => exact absurd hv (hd dbl)
    | boolean b =>
      cases b with
      | true => exact absurd hv hne
      | false => rfl
    | string string => rfl

/-! ## 2. One element

The key is copied and the value is converted by the type that is written beside it. -/

/-- A printed integer is not `true`. -/
theorem str2boolean_sprintfD (v : Int32) : str2boolean (sprintfD v) = 0 := by
  refine if_neg ?_
  intro h
  have hmem : (116 : UInt8) ∈ (sprintfD v).chars := by
    rw [h]
    exact List.mem_cons_self
  unfold sprintfD at hmem
  split at hmem
  · rcases List.mem_cons.mp hmem with h | h
    · cases h
    · exact absurd (isDigit_of_mem_decimal h) (by decide)
  · exact absurd (isDigit_of_mem_decimal hmem) (by decide)

/-- An addition that is accepted. -/
theorem addElement_fresh {key : Name} (value : ElementValue) (hid : key ≠ Name.id)
    (hkey : key ∉ s.elements.map Element.key) (hroom : s.size < s.capacity) :
    (addElement s key value).1 = .addOk ∧
      (addElement s key value).2.elements = s.elements ++ [⟨key, value⟩] ∧
      (addElement s key value).2.size = s.size + 1 ∧
      (addElement s key value).2.capacity = s.capacity := by
  have hany : ¬ (s.elements.any fun e => e.key = key) = true := by
    simpa using hkey
  rw [addElement, if_neg hid, if_neg hany, if_neg (by omega)]
  exact ⟨rfl, rfl, rfl, rfl⟩

/-- **An element is added as it is received.** -/
theorem addFromXml_valid (hv : a.Valid) (hkey : ∀ e ∈ s.elements, e.key.chars ≠ a.name.chars)
    (hroom : s.size < s.capacity) :
    ∃ s' e, addFromXml strtod s (zpathSchemaElementToXml sprintfF a) = some s' ∧ ReceivedAs a e ∧
      s'.elements = s.elements ++ [e] ∧ s'.size = s.size + 1 ∧ s'.capacity = s.capacity := by
  obtain ⟨name, value⟩ := a
  have hname : strcpyName name = some ⟨name.chars, hv.short, name.noNul⟩ :=
    strcpyName_of_short hv.short
  have hid : (⟨name.chars, hv.short, name.noNul⟩ : Name) ≠ Name.id :=
    fun h => hv.notId (congrArg Name.chars h)
  have hnew : (⟨name.chars, hv.short, name.noNul⟩ : Name) ∉ s.elements.map Element.key := by
    intro hmem
    obtain ⟨e, he, hek⟩ := List.mem_map.mp hmem
    exact hkey e he (congrArg Name.chars hek)
  cases value with
  | int integer =>
    obtain ⟨-, hes, hsize, hcap⟩ := addElement_fresh (.int integer) hid hnew hroom
    refine ⟨_, _, ?_, ⟨rfl, rfl⟩, hes, hsize, hcap⟩
    simp [addFromXml, zpathSchemaElementToXml, zpathSchemaValueToXml, hname, str2int_sprintfD,
      addIntToSchema]
  | double dbl => exact absurd rfl (hv.noDouble dbl)
  | boolean b =>
    have hint : xmlChar "BOOL" ≠ xmlChar "INT" := by decide
    have hdbl : xmlChar "BOOL" ≠ xmlChar "DBL" := by decide
    have hstr : xmlChar "BOOL" ≠ xmlChar "STR" := by decide
    obtain ⟨-, hes, hsize, hcap⟩ := addElement_fresh (.boolean 0) hid hnew hroom
    refine ⟨_, _, ?_, ⟨rfl, rfl⟩, hes, hsize, hcap⟩
    simp [addFromXml, zpathSchemaElementToXml, zpathSchemaValueToXml, hname, hint, hdbl, hstr,
      str2boolean_sprintfD, addBooleanToSchema]
  | string string =>
    have hint : xmlChar "STR" ≠ xmlChar "INT" := by decide
    have hdbl : xmlChar "STR" ≠ xmlChar "DBL" := by decide
    obtain ⟨hok, hes, hsize, hcap⟩ :=
      addElement_fresh (.text (Text.ofString string)) hid hnew hroom
    have hadd : ∃ s', (addTextToSchema s ⟨name.chars, hv.short, name.noNul⟩ string).2 = s' ∧
        s'.elements = s.elements ++ [⟨⟨name.chars, hv.short, name.noNul⟩,
          .text (Text.ofString string)⟩] ∧ s'.size = s.size + 1 ∧ s'.capacity = s.capacity := by
      unfold addTextToSchema
      cases h : addElement s ⟨name.chars, hv.short, name.noNul⟩ (.text (Text.ofString string)) with
      | mk st s' =>
        rw [h] at hok hes hsize hcap
        obtain rfl : st = .addOk := hok
        exact ⟨_, rfl, hes, hsize, hcap⟩
    obtain ⟨s', hs', hes', hsize', hcap'⟩ := hadd
    refine ⟨s', _, ?_, ⟨rfl, rfl⟩, hes', hsize', hcap'⟩
    simp [addFromXml, zpathSchemaElementToXml, zpathSchemaValueToXml, hname, hint, hdbl, hs']

/-! ## 3. Schemas

The elements are added one after the other.  None is refused, as their keys differ. -/

/-- **The schema node is found** behind the document node, which has the search below it fail. -/
theorem findNodeByName_schema (docName : CString) (first : List AstAddSchema) (path : AstPath) :
    findNodeByName [zpathToXml sprintfF ⟨.add docName first, path⟩] "schema"
      = some (zpathSchemaToXml sprintfF first) := by
  have hschema : findNodeByName [zpathSchemaToXml sprintfF first, zpathPathNodeToXml path] "schema"
      = some (zpathSchemaToXml sprintfF first) := findNodeByName_self rfl _
  by_cases h : docName.chars = []
  · refine findNodeByName_below (by decide) ?_
    simpa [zpathRequestToXml, textChildren, h, findNodeByName_leaf] using hschema
  · simpa [zpathToXml, zpathRequestToXml, textChildren, h, findNodeByName, XmlNode.name]
      using hschema

/-- **A schema is received element by element.** -/
theorem schema_received (hv : ∀ a ∈ first, a.Valid)
    (hnodup : (first.map AstAddSchema.name).Nodup)
    (hkey : ∀ a ∈ first, ∀ e ∈ s.elements, e.key.chars ≠ a.name.chars)
    (hroom : s.size + first.length = s.capacity) :
    ∃ s' es, (first.map (zpathSchemaElementToXml sprintfF)).foldlM (addFromXml strtod) s = some s' ∧
      List.Forall₂ ReceivedAs first es ∧ s'.elements = s.elements ++ es ∧ s'.Complete := by
  induction first generalizing s with
  | nil => exact ⟨s, [], rfl, .nil, (List.append_nil _).symm, hroom.symm⟩
  | cons a first ih =>
    rw [List.map_cons, List.nodup_cons] at hnodup
    rw [List.length_cons] at hroom
    obtain ⟨s1, e, hs1, he, hes1, hsize1, hcap1⟩ := addFromXml_valid sprintfF strtod
      (hv a List.mem_cons_self) (hkey a List.mem_cons_self) (by omega)
    have hkey1 : ∀ b ∈ first, ∀ e' ∈ s1.elements, e'.key.chars ≠ b.name.chars := by
      intro b hb e' he' heq
      rw [hes1] at he'
      rcases List.mem_append.mp he' with he' | he'
      · exact hkey b (List.mem_cons_of_mem _ hb) e' he' heq
      · rw [List.mem_singleton.mp he', he.key] at heq
        refine hnodup.1 (List.mem_map.mpr ⟨b, hb, ?_⟩)
        rw [CString.mk.injEq, heq]
    obtain ⟨s', es, hs', hsame, hes', hcomplete⟩ := ih
      (fun b hb => hv b (List.mem_cons_of_mem _ hb)) hnodup.2 hkey1 (by omega)
    refine ⟨s', e :: es, ?_, .cons he hsame, by rw [hes', hes1]; simp, hcomplete⟩
    rw [List.map_cons, List.foldlM_cons, hs1]
    exact hs'

/-- The schema that the server builds. -/
theorem createSchema_received (hne : first ≠ []) (hv : ∀ a ∈ first, a.Valid)
    (hnodup : (first.map AstAddSchema.name).Nodup) (hlen : first.length ≤ 2 ^ 31 - 1) :
    ∃ schema, createSchemaFromXml strtod (zpathSchemaToXml sprintfF first) = some schema ∧
      List.Forall₂ ReceivedAs first schema.elements ∧ schema.Complete := by
  obtain ⟨schema, es, hrun, hsame, hes, hcomplete⟩ := schema_received sprintfF strtod hv
    hnodup (by simp [initSchema]) (show (initSchema first.length).size + _ = _ by simp [initSchema])
  have helements : schema.elements = es := hes
  refine ⟨schema, ?_, helements ▸ hsame, hcomplete⟩
  have hchildren : (zpathSchemaToXml sprintfF first).children ≠ [] := by
    simpa [zpathSchemaToXml, XmlNode.children] using hne
  rw [createSchemaFromXml]
  simp only [zpathSchemaToXml, xmlGetProp_cons, if_true, Option.bind_eq_bind, Option.bind_some,
    str2long_sprintfZu hlen, Int.toNat_natCast]
  exact (if_neg hchildren).trans hrun

/-- A schema that is too long is not read: its size is not. -/
theorem createSchema_long (hlen : ¬ first.length ≤ 2 ^ 31 - 1) :
    createSchemaFromXml strtod (zpathSchemaToXml sprintfF first) = none := by
  rw [createSchemaFromXml]
  simp [zpathSchemaToXml, str2long_overflow (Nat.lt_of_not_le hlen)]

/-- **A schema arrives as it was sent** exactly when its length fits into 32 bits and no boolean of
it is true.  Everything else comes back: the order, the keys, the integers through `sprintf` and
`strtol`, the strings.  A boolean is printed as a number and compared with a word, so that true is
received as false. -/
theorem schema_codec (docName : CString) (path : AstPath) (hne : first ≠ [])
    (hv : ∀ a ∈ first, a.Valid) (hnodup : (first.map AstAddSchema.name).Nodup) :
    SchemaArrives sprintfF strtod docName first path ↔
      first.length ≤ 2 ^ 31 - 1 ∧ ∀ a ∈ first, a.value ≠ .boolean true := by
  have hfind := findNodeByName_schema sprintfF docName first path
  by_cases hlen : first.length ≤ 2 ^ 31 - 1
  · obtain ⟨schema, hrun, hreceived, hcomplete⟩ :=
      createSchema_received sprintfF strtod hne hv hnodup hlen
    obtain ⟨hlength, hget⟩ := List.forall₂_iff_get.mp hreceived
    constructor
    · rintro ⟨node, schema', hfind', hrun', hsame, -⟩
      obtain rfl := Option.some.inj (hfind.symm.trans hfind')
      obtain rfl := Option.some.inj (hrun.symm.trans hrun')
      refine ⟨hlen, ?_⟩
      intro a ha
      obtain ⟨-, hget'⟩ := List.forall₂_iff_get.mp hsame
      obtain ⟨i, hi, rfl⟩ := List.mem_iff_getElem.mp ha
      exact ((hget i hi (hlength ▸ hi)).same_iff (hv _ ha).noDouble).mp (hget' i hi (hlength ▸ hi))
    · rintro ⟨-, hfalse⟩
      refine ⟨_, schema, hfind, hrun, List.forall₂_iff_get.mpr ⟨hlength, ?_⟩, hcomplete⟩
      intro i hi hi'
      have hmem : first.get ⟨i, hi⟩ ∈ first := List.get_mem _ _
      exact ((hget i hi hi').same_iff (hv _ hmem).noDouble).mpr (hfalse _ hmem)
  · refine iff_of_false ?_ fun h => hlen h.1
    rintro ⟨node, schema, hfind', hrun, -⟩
    obtain rfl := Option.some.inj (hfind.symm.trans hfind')
    rw [createSchema_long sprintfF strtod hlen] at hrun
    cases hrun

/-- The smallest integer and a text. -/
def intAndText : List AstAddSchema :=
  [⟨xmlChar "a", .int (-2147483648)⟩, ⟨xmlChar "b", .string (xmlChar "x y")⟩]

theorem schema_codec_intAndText : SchemaArrives (fun _ => xmlChar "")
    (fun _ => ⟨0, true, 0, false⟩) (xmlChar "d") intAndText ⟨[], 0⟩ :=
  (schema_codec (fun _ => xmlChar "") (fun _ => ⟨0, true, 0, false⟩) (xmlChar "d") ⟨[], 0⟩
    (by simp [intAndText]) (by
      simp only [intAndText, List.mem_cons, List.not_mem_nil, or_false]
      rintro a (rfl | rfl)
      · exact ⟨by simp, by decide, by decide⟩
      · exact ⟨by simp, by decide, by decide⟩) (by decide)).mpr ⟨by decide, by decide⟩

/-- A boolean that is true. -/
def trueBoolean : List AstAddSchema := [⟨xmlChar "a", .boolean true⟩]

/-- It arrives as false. -/
theorem true_boolean_lost : ¬ SchemaArrives (fun _ => xmlChar "") (fun _ => ⟨0, true, 0, false⟩)
    (xmlChar "d") trueBoolean ⟨[], 0⟩ := by
  have hv : ∀ a ∈ trueBoolean, a.Valid := by
    simp only [trueBoolean, List.mem_singleton]
    rintro a rfl
    exact ⟨by simp, by decide, by decide⟩
  obtain ⟨schema, hrun, hreceived, -⟩ := createSchema_received (fun _ => xmlChar "")
    (fun _ => ⟨0, true, 0, false⟩) (by simp [trueBoolean]) hv (by decide) (by decide)
  rintro ⟨node, schema', hfind, hrun', hsame, -⟩
  obtain rfl := Option.some.inj ((findNodeByName_schema _ _ _ _).symm.trans hfind)
  obtain rfl := Option.some.inj (hrun.symm.trans hrun')
  obtain ⟨e, es, he, -, hes⟩ := List.forall₂_cons_left_iff.mp hreceived
  rw [hes] at hsame
  have ha : SameElement ⟨xmlChar "a", .boolean true⟩ e := (List.forall₂_cons.mp hsame).1
  exact (he.same_iff (by simp)).mp ha rfl

end Zgdb
