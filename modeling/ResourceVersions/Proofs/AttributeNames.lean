import ResourceVersions.Proofs.NormalNames
import ResourceVersions.Proofs.RegisteredModel

/-! # Names of attributes

The attribute for a member or a field is spelled with a small first word. So two of one class can
share an attribute though their names differ, and nothing compares them: this happens exactly if
the first words differ in case alone and the names go on alike. Only the classes of resources
themselves never have two attributes of one name. -/
namespace ResourceVersions

open Text

namespace Name

variable {word w v rest s : List Char} {ws vs : List (List Char)} {c : Char} {a b : String}

/-- The attribute for a text that holds a word. -/
def attrOf (given : String) : String := safe (String.ofList (camelLower (wordsOf given.toList)))

/-- Two texts that share an attribute: their first words differ in case alone and what follows is
capitalised alike, or they start with numbers and are capitalised alike as a whole. -/
def Clash (a b : String) : Prop :=
  match wordsOf a.toList, wordsOf b.toList with
  | w :: ws, v :: vs =>
    (lower w = lower v ∧ camel ws = camel vs) ∨
      ((∀ c ∈ w ++ v, isAsciiDigit c = true) ∧ camelOf a = camelOf b)
  | _, _ => False

section Words

/-- A word is a number or has no digits. -/
theorem digits_of_mem_wordsOf : ∀ w ∈ wordsOf s,
    (∀ c ∈ w, isAsciiDigit c = true) ∨ ∀ c ∈ w, isAsciiDigit c = false := by
  intro w hw
  let Alike (a b : Char) : Prop := isAsciiDigit a = isAsciiDigit b
  have hsame : ∀ a b behind, endsBetween a b behind = false → Alike a b := by
    intro a b behind h
    simp only [endsBetween, Bool.or_eq_false_iff, bne_eq_false_iff_eq] at h
    exact h.1.1
  let _ : Trans Alike Alike Alike := ⟨Eq.trans⟩
  have hall := List.isChain_iff_pairwise.mp (chain_of_mem_wordsFrom hsame (by simp) w hw)
  cases w with
  | nil => exact .inl (by simp)
  | cons c rest =>
    have hrest : ∀ d ∈ rest, isAsciiDigit c = isAsciiDigit d := (List.pairwise_cons.mp hall).1
    cases hc : isAsciiDigit c with
    | true =>
      rw [hc] at hrest
      exact .inl (List.forall_mem_cons.mpr ⟨hc, fun d hd => (hrest d hd).symm⟩)
    | false =>
      rw [hc] at hrest
      exact .inr (List.forall_mem_cons.mpr ⟨hc, fun d hd => (hrest d hd).symm⟩)

/-- The first word of a text, and the capitalised spelling of the others behind it. -/
theorem first_word (h : wordsOf s = w :: ws) : w ≠ [] ∧ (∀ c ∈ w, isAsciiAlnum c = true) ∧
    ((∀ c ∈ w, isAsciiDigit c = true) ∨ ∀ c ∈ w, isAsciiDigit c = false) ∧
    ∀ c ∈ (camel ws).head?, isAsciiLower c = false := by
  have hmem : ∀ v ∈ w :: ws, v ∈ wordsOf s := fun v hv => h ▸ hv
  have hw := hmem w List.mem_cons_self
  have hrest : Capitalized (camel ws) := by
    apply capitalized_camel
    intro v hv
    have hv := hmem v (List.mem_cons_of_mem _ hv)
    exact ⟨alnum_of_mem_wordsOf v hv, flows_of_mem_wordsOf v hv⟩
  exact ⟨ne_nil_of_mem_wordsFrom w hw, alnum_of_mem_wordsOf w hw, digits_of_mem_wordsOf w hw,
    hrest.start⟩

theorem digit_not_upper (h : isAsciiDigit c = true) : isAsciiUpper c = false := by
  have hnine : '9'.val.toNat < 'A'.val.toNat := by decide
  unfold isAsciiDigit asciiDigit? at h
  simp only [isAsciiUpper, Bool.and_eq_false_iff, decide_eq_false_iff_not, Char.le_def,
    UInt32.le_iff_toNat_le] at h ⊢
  split at h
  · left
    omega
  · cases h

theorem lowerChar_of_not_upper (h : isAsciiUpper c = false) : lowerChar c = c := by
  unfold lowerChar
  rw [if_neg (by simp [h])]

/-- A letter gives a small letter. -/
theorem lowerChar_lower (halnum : isAsciiAlnum c = true) (h : isAsciiDigit c = false) :
    isAsciiLower (lowerChar c) = true := by
  cases hupper : isAsciiUpper c with
  | true => exact forall_upper hupper (by decide)
  | false =>
    rw [lowerChar_of_not_upper hupper]
    simpa [isAsciiAlnum, hupper, h] using halnum

theorem lower_of_digits (h : ∀ c ∈ w, isAsciiDigit c = true) : lower w = w := by
  unfold lower
  rw [List.map_congr_left fun c hc => lowerChar_of_not_upper (digit_not_upper (h c hc)),
    List.map_id']

theorem lower_small (halnum : ∀ c ∈ w, isAsciiAlnum c = true)
    (h : ∀ c ∈ w, isAsciiDigit c = false) : ∀ c ∈ lower w, isAsciiLower c = true := by
  intro c hc
  obtain ⟨d, hd, rfl⟩ := List.mem_map.mp hc
  exact lowerChar_lower (halnum d hd) (h d hd)

theorem capitalize_of_digits (h : ∀ c ∈ w, isAsciiDigit c = true) : capitalize w = w := by
  apply capitalize_of_not_lower
  intro c hc
  by_contra hlower
  have hdigit := h c (List.mem_of_mem_head? hc)
  rw [lower_not_digit (by simpa using hlower)] at hdigit
  cases hdigit

end Words

section Attributes

/-- Small letters in front of something that begins otherwise. -/
theorem append_small_inj {u u' t t' : List Char} (hu : ∀ c ∈ u, isAsciiLower c = true)
    (hu' : ∀ c ∈ u', isAsciiLower c = true) (ht : ∀ c ∈ t.head?, isAsciiLower c = false)
    (ht' : ∀ c ∈ t'.head?, isAsciiLower c = false) (h : u ++ t = u' ++ t') : u = u' ∧ t = t' := by
  induction u generalizing u' with
  | nil =>
    cases u' with
    | nil => exact ⟨rfl, h⟩
    | cons c u' =>
      obtain rfl : t = c :: (u' ++ t') := h
      have hsmall := hu' c List.mem_cons_self
      rw [ht c rfl] at hsmall
      cases hsmall
  | cons c u ih =>
    cases u' with
    | nil =>
      obtain rfl : c :: (u ++ t) = t' := h
      have hsmall := hu c List.mem_cons_self
      rw [ht' c rfl] at hsmall
      cases hsmall
    | cons c' u' =>
      obtain ⟨rfl, hrest⟩ := List.cons.inj h
      obtain ⟨-, hu⟩ := List.forall_mem_cons.mp hu
      obtain ⟨-, hu'⟩ := List.forall_mem_cons.mp hu'
      obtain ⟨rfl, rfl⟩ := ih hu hu' hrest
      exact ⟨rfl, rfl⟩

theorem lowerChar_alnum (h : isAsciiAlnum c = true) : isAsciiAlnum (lowerChar c) = true := by
  cases hdigit : isAsciiDigit c with
  | true => rwa [lowerChar_of_not_upper (digit_not_upper hdigit)]
  | false => simp [isAsciiAlnum, lowerChar_lower h hdigit]

theorem camelLower_underscore (given : String) :
    '_' ∉ (String.ofList (camelLower (wordsOf given.toList))).toList := by
  rw [String.toList_ofList]
  have halnum : ∀ w ∈ wordsOf given.toList, ∀ c ∈ w, isAsciiAlnum c = true := alnum_of_mem_wordsOf
  cases hwords : wordsOf given.toList with
  | nil => simp [camelLower]
  | cons w ws =>
    rw [hwords, List.forall_mem_cons] at halnum
    intro hin
    have hunderscore : isAsciiAlnum '_' = true := by
      rcases List.mem_append.mp hin with hin | hin
      · obtain ⟨c, hc, heq⟩ := List.mem_map.mp hin
        exact heq ▸ lowerChar_alnum (halnum.1 c hc)
      · exact camel_alnum halnum.2 '_' hin
    exact absurd hunderscore (by decide)

/-- Nothing without an underscore becomes what a keyword becomes. -/
theorem safe_inj (ha : '_' ∉ a.toList) (hb : '_' ∉ b.toList) (h : safe a = safe b) : a = b := by
  have hmarked : ∀ u : String, '_' ∈ (u ++ "_").toList := by simp
  unfold safe at h
  split at h <;> split at h
  · exact (String.append_left_inj _).mp h
  · rw [← h] at hb
    exact absurd (hmarked a) hb
  · rw [h] at ha
    exact absurd (hmarked b) ha
  · exact h

/-- What starts with a number is capitalised. -/
theorem camelLower_of_digits (h : ∀ c ∈ w, isAsciiDigit c = true) :
    camelLower (w :: ws) = camel (w :: ws) := by
  rw [camelLower, lower_of_digits h, camel, camel, List.flatMap_cons, capitalize_of_digits h]

/-- A number and a letter do not start alike. -/
theorem camelLower_ne (hw : ∀ c ∈ w, isAsciiDigit c = true)
    (hv : ∀ c ∈ lower v, isAsciiLower c = true) (hwnil : w ≠ []) (hvnil : v ≠ []) :
    camelLower (w :: ws) ≠ camelLower (v :: vs) := by
  intro h
  rw [camelLower, camelLower, lower_of_digits hw] at h
  cases w with
  | nil => exact hwnil rfl
  | cons c w =>
    cases v with
    | nil => exact hvnil rfl
    | cons d v =>
      obtain ⟨rfl, -⟩ := List.cons.inj h
      have hdigit := hw _ List.mem_cons_self
      rw [lower_not_digit (hv _ List.mem_cons_self)] at hdigit
      cases hdigit

theorem attrOf_eq_spelled : attrOf a = attrOf b ↔
    camelLower (wordsOf a.toList) = camelLower (wordsOf b.toList) := by
  constructor
  · intro h
    exact String.ofList_inj.mp (safe_inj (camelLower_underscore a) (camelLower_underscore b) h)
  · intro h
    rw [attrOf, h, attrOf]

/-- Two texts share an attribute exactly if they clash. -/
theorem attrOf_eq_iff (ha : wordsOf a.toList ≠ []) (hb : wordsOf b.toList ≠ []) :
    attrOf a = attrOf b ↔ Clash a b := by
  rw [attrOf_eq_spelled]
  unfold Clash camelOf
  cases hwa : wordsOf a.toList with
  | nil => exact absurd hwa ha
  | cons w ws =>
    cases hwb : wordsOf b.toList with
    | nil => exact absurd hwb hb
    | cons v vs =>
      obtain ⟨hwnil, hwalnum, hw, hws⟩ := first_word hwa
      obtain ⟨hvnil, hvalnum, hv, hvs⟩ := first_word hwb
      dsimp only
      rw [String.ofList_inj, List.forall_mem_append]
      constructor
      · intro h
        rcases hw with hw | hw <;> rcases hv with hv | hv
        · rw [camelLower_of_digits hw, camelLower_of_digits hv] at h
          exact .inr ⟨⟨hw, hv⟩, h⟩
        · exact absurd h (camelLower_ne hw (lower_small hvalnum hv) hwnil hvnil)
        · exact absurd h.symm (camelLower_ne hv (lower_small hwalnum hw) hvnil hwnil)
        · exact .inl (append_small_inj (lower_small hwalnum hw) (lower_small hvalnum hv) hws hvs h)
      · rintro (⟨hfirst, hrest⟩ | ⟨⟨hw, hv⟩, h⟩)
        · rw [camelLower, camelLower, hfirst, hrest]
        · rw [camelLower_of_digits hw, camelLower_of_digits hv, h]

example : Clash "URL" "Url" ∧ ¬Clash "PageSize" "Pagesize" := by
  rw [← attrOf_eq_iff, ← attrOf_eq_iff] <;> decide +kernel

end Attributes

/-- No two of some texts clash. -/
def Apart (texts : List String) : Prop := texts.Pairwise fun a b => ¬Clash a b

theorem nodup_attrOf_iff {texts : List String} (h : ∀ t ∈ texts, wordsOf t.toList ≠ []) :
    (texts.map attrOf).Nodup ↔ Apart texts := by
  rw [List.Nodup, List.pairwise_map]
  apply List.Pairwise.iff_of_mem
  intro a b ha hb
  rw [ne_eq, attrOf_eq_iff (h a ha) (h b hb)]

end Name

theorem Names.attr_eq {given : String} {names : Names} (h : Names.of given = .ok names) :
    names.camelLower = Name.attrOf names.given ∧ Name.wordsOf names.given.toList ≠ [] := by
  rw [Names.given_eq h]
  constructor
  · rw [Names.of_ok h]
    rfl
  · exact Names.words_ne_nil h

namespace Source

variable {m : VersionModel} {d : TypeDef} {c : ClassDef} {fields : Table Field}

theorem typeClass_attrs (h : typeClass m d = .ok c) :
    c.attrNames = d.attrs.map fun a => a.names.camelLower := by
  obtain ⟨attrs, hattrs, h⟩ := Fallible.bind_ok_iff.mp h
  cases h
  refine Fallible.mapM_ok_map (fun a b hb => ?_) hattrs
  obtain ⟨hint, -, hb⟩ := Fallible.bind_ok_iff.mp hb
  cases hb
  rfl

theorem fieldAttrs_names {attrs : List ClassAttr} (h : fieldAttrs m fields = .ok attrs) :
    attrs.map ClassAttr.name = fields.sorted.map fun e => e.2.attrName := by
  refine Fallible.mapM_ok_map (fun e b hb => ?_) h
  obtain ⟨hint, -, hb⟩ := Fallible.bind_ok_iff.mp hb
  cases hb
  rfl

/-- The texts that the fields of a part of a resource are spelled after. -/
def fieldTexts (fields : Table Field) : List String := fields.sorted.map fun e => e.2.names.given

theorem attrNames_fields {lead : List String} (hlead : lead.map Name.attrOf = lead)
    (hwords : ∀ t ∈ lead, Name.wordsOf t.toList ≠ []) (h : Resource.Spelled fields) :
    (lead ++ fields.sorted.map fun e => e.2.attrName).Nodup ↔
      Name.Apart (lead ++ fieldTexts fields) := by
  have hfield : ∀ e ∈ fields.sorted, e.2.attrName = Name.attrOf e.2.names.given ∧
      Name.wordsOf e.2.names.given.toList ≠ [] := by
    intro e he
    obtain ⟨given, hgiven⟩ := h e.1 e.2 (Table.mem_sorted_iff.mp he)
    exact Names.attr_eq hgiven
  rw [← Name.nodup_attrOf_iff, List.map_append, hlead, fieldTexts, List.map_map]
  · rw [List.map_congr_left fun e he => (hfield e he).1]
    rfl
  · intro t ht
    rcases List.mem_append.mp ht with ht | ht
    · exact hwords t ht
    · obtain ⟨e, he, rfl⟩ := List.mem_map.mp ht
      exact (hfield e he).2

theorem metadata_attr : ["resourceMetadata"].map Name.attrOf = ["resourceMetadata"] ∧
    ∀ t ∈ ["resourceMetadata"], Name.wordsOf t.toList ≠ [] := by
  decide +kernel

/-- The attributes of a class differ exactly if no two of the members or fields they stand for
clash. A Status has the attribute for resource metadata besides, and the attributes of the class of
a resource always differ. -/
theorem attribute_names_distinct_iff (h : m.Built) :
    (∀ d ∈ m.typeDefs, ∀ c, typeClass m d = .ok c →
      (c.attrNames.Nodup ↔ Name.Apart (d.attrs.map fun a => a.names.given))) ∧
    ∀ r ∈ m.resources,
      (∀ c, specClass m r = .ok c → (c.attrNames.Nodup ↔ Name.Apart (fieldTexts r.spec))) ∧
      (∀ c, statusClass m r = .ok c →
        (c.attrNames.Nodup ↔ Name.Apart ("resourceMetadata" :: fieldTexts r.status))) ∧
      (resourceClass m r).attrNames.Nodup := by
  have hspelled := h.each fun config names create => Resource.spelled_build config names create
  constructor
  · intro d hd c hc
    have hattr : ∀ a ∈ d.attrs, a.names.camelLower = Name.attrOf a.names.given ∧
        Name.wordsOf a.names.given.toList ≠ [] := by
      intro a ha
      obtain ⟨member, hmember⟩ := (h.parts.2.each d hd).names a ha
      exact Names.attr_eq hmember
    rw [typeClass_attrs hc, ← Name.nodup_attrOf_iff, List.map_map]
    · rw [List.map_congr_left fun a ha => (hattr a ha).1]
      rfl
    · intro t ht
      obtain ⟨a, ha, rfl⟩ := List.mem_map.mp ht
      exact (hattr a ha).2
  · intro r hr
    obtain ⟨hspec, hstatus⟩ := hspelled r hr
    refine ⟨?_, ?_, ?_⟩
    · intro c hc
      obtain ⟨attrs, hattrs, hc⟩ := Fallible.bind_ok_iff.mp hc
      cases hc
      rw [ClassDef.attrNames, fieldAttrs_names hattrs]
      have hnone : ∀ t ∈ [], Name.wordsOf (String.toList t) ≠ [] := by simp
      exact attrNames_fields rfl hnone hspec
    · intro c hc
      obtain ⟨attrs, hattrs, hc⟩ := Fallible.bind_ok_iff.mp hc
      cases hc
      rw [ClassDef.attrNames, List.map_cons, fieldAttrs_names hattrs]
      exact attrNames_fields metadata_attr.1 metadata_attr.2 hstatus
    · show ["apiVersion", "kind", "spec", "status"].Nodup
      decide

end Source

namespace Source.Sample

/-- The payload of the only resource has two members whose names differ in case alone. -/
def links : Api where
  serviceId := "S"
  apiVersion := "1"
  shapes := .ofList [("Payload", ⟨.struct (.ofList [("URL", ⟨"Text", ""⟩), ("Url", ⟨"Text", ""⟩)]),
    [], false, ""⟩), ("Text", ⟨.scalar .string, [], false, ""⟩)]
  operations := .ofList [("CreateLink", ⟨"CreateLink", some ⟨"Payload", ""⟩, none⟩)]

def linkRun : Except Error VersionModel × List Record :=
  runFrom (VersionModel.build "v1" links {} none .stop) []

/-- Whether the Spec of a resource has one attribute for the two fields of links. -/
def repeated (m : VersionModel) (r : Resource) : Bool :=
  fieldTexts r.spec == ["URL", "Url"] &&
    (specClass m r).toOption.any fun c => c.attrNames == ["url", "url"]

theorem links_built : ∃ (m : VersionModel) (r : Resource) (c : ClassDef), m.Built ∧
    r ∈ m.resources ∧ specClass m r = .ok c ∧
    fieldTexts r.spec = ["URL", "Url"] ∧ c.attrNames = ["url", "url"] := by
  have hrun : (linkRun.1.toOption.any fun m => m.resources.any (repeated m)) = true := by cbv
  cases hbuilt : linkRun.1 with
  | error e =>
    rw [hbuilt] at hrun
    cases hrun
  | ok m =>
    rw [hbuilt] at hrun
    obtain ⟨r, hr, hrepeated⟩ := List.any_eq_true.mp hrun
    rw [repeated, Bool.and_eq_true, beq_iff_eq] at hrepeated
    cases hc : specClass m r with
    | error e =>
      rw [hc] at hrepeated
      cases hrepeated.2
    | ok c =>
      rw [hc] at hrepeated
      exact ⟨m, r, c, ⟨_, _, _, _, _, hbuilt⟩, hr, hc, hrepeated.1, beq_iff_eq.mp hrepeated.2⟩

/-- The members that share an attribute clash. -/
theorem attribute_names_distinct_iff_links : ∃ (m : VersionModel) (r : Resource), m.Built ∧
    r ∈ m.resources ∧
    fieldTexts r.spec = ["URL", "Url"] ∧ ¬Name.Apart (fieldTexts r.spec) := by
  obtain ⟨m, r, c, hbuilt, hr, hc, htexts, hnames⟩ := links_built
  refine ⟨m, r, hbuilt, hr, htexts, ?_⟩
  obtain ⟨hspec, -⟩ := (attribute_names_distinct_iff hbuilt).2 r hr
  rw [← hspec c hc, hnames]
  decide

/-- Two fields of a Spec share the attribute `url`. -/
theorem attribute_shared : ∃ (m : VersionModel) (r : Resource) (c : ClassDef), m.Built ∧
    r ∈ m.resources ∧ specClass m r = .ok c ∧ ¬c.attrNames.Nodup := by
  obtain ⟨m, r, c, hbuilt, hr, hc, -, hnames⟩ := links_built
  refine ⟨m, r, c, hbuilt, hr, hc, ?_⟩
  rw [hnames]
  decide

end Source.Sample

end ResourceVersions
