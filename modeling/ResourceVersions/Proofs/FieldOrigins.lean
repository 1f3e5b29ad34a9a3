import Mathlib
import ResourceVersions.Proofs.FieldPasses

/-! # Where the fields of a resource come from

The writes that made a resource say which member has the field of its name, which output member has
none, and which names the Spec and the Status both hold. Only paths of configured fields are
compared with names that are taken, and they are compared as they are spelled; whatever else meets
a name that is taken replaces what was there. A field has the settings of its own name, however the
path is spelled that it comes from. -/
namespace ResourceVersions

namespace Resource

variable {api : Api} {config : Config} {mode : OnFailure} {r : Resource} {log : FieldLog}
  {resources : List Resource} {failures : List Failure} {s s' : List Record} {o : Bool}
  {k member : String} {ref : ShapeRef}

section Keys

theorem Logged.mem_part (h : Logged api log r) :
    k ∈ (r.part o).keys ↔ ∃ w ∈ log.all api r, w.observed = o ∧ w.key = k := by
  rw [Table.mem_keys_iff, ← Option.isSome_iff_exists, h.part, lastField_isSome, ne_eq,
    List.filter_eq_nil_iff]
  simp

/-- The keys of the Spec and the Status are capitalised spellings. -/
theorem Logged.key_normal (h : Logged api log r) (hk : k ∈ (r.part o).keys) :
    Name.camelOf k = k := by
  obtain ⟨w, -, -, rfl⟩ := h.mem_part.mp hk
  exact Name.camelOf_camelOf w.given

theorem camelOf_dotless (given : String) : '.' ∉ (Name.camelOf given).toList := by
  intro hin
  exact absurd ((Name.capitalized_camelOf given).alnum '.' hin) (by decide)

theorem Logged.key_dotless (h : Logged api log r) (hk : k ∈ (r.part o).keys) : '.' ∉ k.toList := by
  obtain ⟨w, -, -, rfl⟩ := h.mem_part.mp hk
  exact camelOf_dotless w.given

theorem FieldLog.mem_all_configured {w : FieldWrite} (hw : w ∈ log.configured o) :
    w ∈ log.all api r := by
  unfold FieldLog.all
  cases o with
  | false => exact List.mem_append_left _ (List.mem_append_left _ (List.mem_append_right _ hw))
  | true => exact List.mem_append_right _ hw

/-- Every attribute has its key in its part. -/
theorem Logged.key_attribute (h : Logged api log r) {e : String × FieldConfig}
    (he : e ∈ r.attributes) : Name.camelOf e.1 ∈ (r.part e.2.isReadOnly).keys := by
  refine h.mem_part.mpr ⟨attributeWrite e, ?_, rfl, rfl⟩
  simp only [FieldLog.all, inputWrites, List.mem_append]
  exact .inl (.inl (.inl (.inr (List.mem_map_of_mem he))))

/-- Every configured field with a reference has its key in its part. -/
theorem Logged.key_sourced (h : Logged api log r) {path : String} {fc : FieldConfig}
    (hget : r.settings.fields.get? path = some fc) (hs : Sourced api o path fc ref) :
    Name.camelOf path ∈ (r.part o).keys := by
  rcases h.sourced o path fc ref hget hs with hw | htaken
  · exact h.mem_part.mpr ⟨⟨o, path, some ref⟩, FieldLog.mem_all_configured hw, rfl, rfl⟩
  · -- a path that is taken is spelled like a key
    rw [h.key_normal htaken]
    exact htaken

/-- A field of a part was written under its key. -/
theorem Logged.part_field (h : Logged api log r) {f : Field} (hf : (r.part o).get? k = some f) :
    ∃ w : FieldWrite, w.key = k ∧ f = r.field w := by
  rw [h.part] at hf
  obtain ⟨w, hw, rfl⟩ := Option.map_eq_some_iff.mp hf
  obtain ⟨-, hkey⟩ := List.mem_filter.mp (List.mem_of_getLast? hw)
  rw [Bool.and_eq_true, beq_iff_eq, beq_iff_eq] at hkey
  exact ⟨w, hkey.2, rfl⟩

/-- A field has the settings of the path that is spelled like its key. -/
theorem Logged.part_config (h : Logged api log r) {f : Field} (hf : (r.part o).get? k = some f) :
    f.config? = r.settings.fields.get? k := by
  obtain ⟨w, rfl, rfl⟩ := h.part_field hf
  rfl

theorem inputMembers_sorted (api : Api) (r : Resource) :
    (r.inputMembers api).Pairwise fun e e' => e.1 < e'.1 := by
  unfold inputMembers
  split
  · exact .nil
  · rename_i shape _
    have hkeys := shape.form.members.sortedKeys_pairwise_lt
    rw [← Table.fst_sorted, List.pairwise_map] at hkeys
    exact hkeys.filter _

end Keys

namespace Sample

def text : ShapeRef := ⟨"Text", ""⟩

/-- Tickets have a name and a size, and two members of the output could identify them. -/
def tickets : Api where
  serviceId := "S"
  apiVersion := "1"
  shapes := .ofList [
    ("In", ⟨.struct (.ofList [("Name", text), ("Size", ⟨"Number", ""⟩)]), [], false, ""⟩),
    ("Out", ⟨.struct (.ofList [("Arn", text), ("Name", text), ("TicketArn", text)]), [], false,
      ""⟩),
    ("Text", ⟨.scalar .string, [], false, ""⟩), ("Number", ⟨.scalar .integer, [], false, ""⟩)]
  operations := .ofList [("CreateTicket", ⟨"CreateTicket", some ⟨"In", ""⟩, some ⟨"Out", ""⟩⟩)]

def ticketConfig (fields : List (String × FieldConfig)) : Config where
  resources := .ofList [("Ticket", { fields := .ofList fields })]

/-- A configured field that takes its reference from where tickets are created. -/
def fromTicket (path : String) (isReadOnly : Bool) : FieldConfig :=
  { isReadOnly, source? := some ⟨"CreateTicket", path⟩ }

def ticketRun (fields : List (String × FieldConfig)) :
    Except Error (List Resource × List Failure) × List Record :=
  runFrom (buildAll tickets (ticketConfig fields) .stop) []

/-- Tickets are built with a property that can be computed. -/
theorem ticket_built (fields : List (String × FieldConfig)) (p : Resource → Bool)
    (h : ((ticketRun fields).1.toOption.any fun res => res.1.any p) = true) :
    ∃ resources failures s, ticketRun fields = (.ok (resources, failures), s) ∧
      ∃ r ∈ resources, p r = true := by
  cases hrun : ticketRun fields with
  | mk result s =>
    rw [hrun] at h
    cases result with
    | error e => cases h
    | ok res => exact ⟨res.1, res.2, s, rfl, List.any_eq_true.mp h⟩

/-- Nothing is configured: the last of the two members identifies the tickets. -/
theorem tickets_alone : ∃ resources failures s r,
    ticketRun [] = (.ok (resources, failures), s) ∧ r ∈ resources ∧
      ("Name", text) ∈ r.inputMembers tickets ∧ ("Arn", text) ∈ r.outputMembers tickets ∧
      r.identifier? = some "TicketArn" ∧ r.memberKey "Arn" ∉ r.spec.keys ++ r.status.keys := by
  obtain ⟨resources, failures, s, hrun, r, hr, hp⟩ := ticket_built []
    (fun r => (r.inputMembers tickets).contains ("Name", text) &&
      (r.outputMembers tickets).contains ("Arn", text) && r.identifier? == some "TicketArn" &&
      decide (r.memberKey "Arn" ∉ r.spec.keys ++ r.status.keys)) (by cbv)
  simp only [Bool.and_eq_true, beq_iff_eq, List.contains_iff_mem, decide_eq_true_eq] at hp
  obtain ⟨⟨⟨hinput, houtput⟩, hidentifier⟩, hkey⟩ := hp
  exact ⟨resources, failures, s, r, hrun, hr, hinput, houtput, hidentifier, hkey⟩

/-- The name of the tickets is configured as a read-only field too. -/
theorem tickets_shared : ∃ resources failures s r,
    ticketRun [("Name", fromTicket "Name" true)] = (.ok (resources, failures), s) ∧
      r ∈ resources ∧ r.spec.keys = ["Name", "Size"] ∧ r.status.keys = ["Name"] := by
  obtain ⟨resources, failures, s, hrun, r, hr, hp⟩ := ticket_built
    [("Name", fromTicket "Name" true)]
    (fun r => r.spec.keys == ["Name", "Size"] && r.status.keys == ["Name"]) (by cbv)
  rw [Bool.and_eq_true, beq_iff_eq, beq_iff_eq] at hp
  exact ⟨resources, failures, s, r, hrun, hr, hp.1, hp.2⟩

end Sample

section Inputs

/-- What takes the field of an input member away from it: a member or an attribute behind it of the
same name, or a configured field whose path is another spelling of the name. -/
inductive Rival (api : Api) (r : Resource) (member : String) : Option ShapeRef → Prop where
  | behind {other : String} {ref : ShapeRef} : (other, ref) ∈ r.inputMembers api →
      member < other → r.memberKey other = r.memberKey member → Rival api r member (some ref)
  | unpacked {path : String} {fc : FieldConfig} : (path, fc) ∈ r.attributes →
      fc.isReadOnly = false → Name.camelOf path = r.memberKey member → Rival api r member none
  | respelled {path : String} {fc : FieldConfig} {ref : ShapeRef} :
      r.settings.fields.get? path = some fc → Sourced api false path fc ref →
      Name.camelOf path = r.memberKey member → path ≠ r.memberKey member →
      Rival api r member (some ref)

/-- The writes behind that of a member, given the members behind it. -/
def FieldLog.behind (log : FieldLog) (r : Resource) (post : List (String × ShapeRef)) :
    List FieldWrite :=
  post.map (r.memberWrite false) ++ (r.attributes.map attributeWrite ++
    (log.configured false ++ (log.outputs ++ log.configured true)))

variable {pre post : List (String × ShapeRef)}

theorem all_split (log : FieldLog) (h : r.inputMembers api = pre ++ (member, ref) :: post) :
    log.all api r = pre.map (r.memberWrite false) ++
      r.memberWrite false (member, ref) :: log.behind r post := by
  simp [FieldLog.all, FieldLog.behind, inputWrites, h]

/-- What is written behind a member under its key is a rival of the member. -/
theorem rival_of_write (h : Logged api log r)
    (hmembers : r.inputMembers api = pre ++ (member, ref) :: post) {w : FieldWrite}
    (hw : w ∈ log.behind r post) (hspec : w.observed = false) (hkey : w.key = r.memberKey member) :
    Rival api r member w.ref? := by
  unfold FieldLog.behind at hw
  simp only [List.mem_append] at hw
  rcases hw with hw | hw | hw | hw | hw
  · obtain ⟨⟨other, ref'⟩, hin, rfl⟩ := List.mem_map.mp hw
    have hsorted := inputMembers_sorted api r
    rw [hmembers, List.pairwise_append, List.pairwise_cons] at hsorted
    have hother : (other, ref') ∈ r.inputMembers api := by
      rw [hmembers]
      exact List.mem_append_right _ (List.mem_cons_of_mem _ hin)
    exact .behind hother (hsorted.2.1.1 _ hin) hkey
  · obtain ⟨⟨path, fc⟩, hin, rfl⟩ := List.mem_map.mp hw
    exact .unpacked hin hspec hkey
  · obtain ⟨path, fc, ref', hget, hs, rfl, hfree⟩ := h.configured false w hw
    have hinput : r.memberWrite false (member, ref) ∈ r.inputWrites api := by
      apply List.mem_append_left
      apply List.mem_map_of_mem
      simp [hmembers]
    exact .respelled hget hs hkey (hfree _ hinput rfl).symm
  · rw [(h.outputs w hw).1] at hspec
    cases hspec
  · obtain ⟨path, fc, ref', -, -, rfl, -⟩ := h.configured true w hw
    cases hspec

theorem write_of_rival (h : Logged api log r)
    (hmembers : r.inputMembers api = pre ++ (member, ref) :: post) {ref? : Option ShapeRef}
    (hrival : Rival api r member ref?) :
    ∃ w ∈ log.behind r post, w.observed = false ∧ w.key = r.memberKey member := by
  unfold FieldLog.behind
  cases hrival with
  | @behind other ref' hin hlt hkey =>
    have hsorted := inputMembers_sorted api r
    rw [hmembers, List.pairwise_append] at hsorted
    have hpost : (other, ref') ∈ post := by
      rw [hmembers] at hin
      rcases List.mem_append.mp hin with hin | hin
      · have hearlier : other < member := hsorted.2.2 _ hin _ (List.mem_cons_self ..)
        exact absurd hearlier (String.lt_asymm hlt)
      · rcases List.mem_cons.mp hin with heq | hin
        · cases heq
          exact (String.lt_irrefl _ hlt).elim
        · exact hin
    exact ⟨r.memberWrite false (other, ref'), List.mem_append_left _ (List.mem_map_of_mem hpost),
      rfl, hkey⟩
  | @unpacked path fc hin hspec hkey =>
    refine ⟨attributeWrite (path, fc), ?_, hspec, hkey⟩
    apply List.mem_append_right
    exact List.mem_append_left _ (List.mem_map_of_mem hin)
  | @respelled path fc ref' hget hs hkey hne =>
    rcases h.sourced false path fc ref' hget hs with hw | htaken
    · refine ⟨⟨false, path, some ref'⟩, ?_, rfl, hkey⟩
      apply List.mem_append_right
      apply List.mem_append_right
      exact List.mem_append_left _ hw
    · -- a path that is taken is spelled like a key
      exact (hne ((h.key_normal htaken).symm.trans hkey)).elim

/-- Every member of the create input has a field of its name in the Spec. It is the member's own
exactly if the member has no rivals; else it is that of a rival. -/
theorem input_member_field
    (hrun : runFrom (buildAll api config mode) s = (.ok (resources, failures), s'))
    (hr : r ∈ resources) (he : (member, ref) ∈ r.inputMembers api) :
    ∃ f, r.spec.get? (r.memberKey member) = some f ∧
      (f.ref? = some ref ∧ (∀ ref?, ¬ Rival api r member ref?) ∨ Rival api r member f.ref?) := by
  obtain ⟨log, h⟩ := buildAll_logged api config mode s _ s' hrun r hr
  obtain ⟨pre, post, hmembers⟩ := List.append_of_mem he
  let mine (w : FieldWrite) : Bool := w.observed == false && w.key == r.memberKey member
  have hmine : ∀ {w}, mine w = true ↔ w.observed = false ∧ w.key = r.memberKey member := by
    simp [mine]
  have hown : mine (r.memberWrite false (member, ref)) = true := hmine.mpr ⟨rfl, rfl⟩
  have hget : r.spec.get? (r.memberKey member) = r.lastField ((log.all api r).filter mine) :=
    h.part false _
  rw [hget, all_split log hmembers, List.filter_append, List.filter_cons_of_pos hown]
  cases hlast : ((log.behind r post).filter mine).getLast? with
  | none =>
    refine ⟨r.field (r.memberWrite false (member, ref)), ?_, .inl ⟨rfl, ?_⟩⟩
    · simp [lastField, List.getLast?_cons, hlast]
    · intro ref? hrival
      obtain ⟨w, hw, hwrite⟩ := write_of_rival h hmembers hrival
      rw [List.getLast?_eq_none_iff, List.filter_eq_nil_iff] at hlast
      exact hlast w hw (hmine.mpr hwrite)
  | some w =>
    obtain ⟨hw, hwrite⟩ := List.mem_filter.mp (List.mem_of_getLast? hlast)
    obtain ⟨hspec, hkey⟩ := hmine.mp hwrite
    refine ⟨r.field w, ?_, .inr (rival_of_write h hmembers hw hspec hkey)⟩
    simp [lastField, List.getLast?_cons, hlast]

open Sample in
theorem input_member_field_ticket : ∃ resources failures s r f,
    ticketRun [] = (.ok (resources, failures), s) ∧ r ∈ resources ∧
      ("Name", text) ∈ r.inputMembers tickets ∧ r.spec.get? (r.memberKey "Name") = some f ∧
      (f.ref? = some text ∧ (∀ ref?, ¬ Rival tickets r "Name" ref?) ∨
        Rival tickets r "Name" f.ref?) := by
  obtain ⟨resources, failures, s, r, hrun, hr, he, -⟩ := tickets_alone
  obtain ⟨f, hget, hf⟩ := input_member_field hrun hr he
  exact ⟨resources, failures, s, r, f, hrun, hr, he, hget, hf⟩

open Sample in
/-- The field `Name` of the Spec holds a size, since a configured field is spelled `name`. -/
theorem input_member_replaced : ∃ resources failures s r f,
    ticketRun [("name", fromTicket "Size" false)] = (.ok (resources, failures), s) ∧
      r ∈ resources ∧ ("Name", text) ∈ r.inputMembers tickets ∧
      r.spec.get? (r.memberKey "Name") = some f ∧ f.ref? = some ⟨"Number", ""⟩ := by
  obtain ⟨resources, failures, s, hrun, r, hr, hp⟩ := ticket_built
    [("name", fromTicket "Size" false)]
    (fun r => (r.inputMembers tickets).contains ("Name", text) &&
      (r.spec.get? (r.memberKey "Name")).any fun f => f.ref? == some ⟨"Number", ""⟩) (by cbv)
  rw [Bool.and_eq_true, List.contains_iff_mem, Option.any_eq_true] at hp
  obtain ⟨he, f, hget, hf⟩ := hp
  exact ⟨resources, failures, s, r, f, hrun, hr, he, hget, by simpa using hf⟩

end Inputs

section Outputs

/-- A member of the create output that is found again: it identifies the resource, or there is a
field of its name. -/
def Accounted (r : Resource) (member : String) : Prop :=
  r.identifier? = some member ∨ r.memberKey member ∈ r.spec.keys ∨
    r.memberKey member ∈ r.status.keys

/-- A member that is not renamed has its name for its key, if the name is a key at all. -/
theorem memberKey_of_taken (h : Logged api log r) (htaken : member ∈ (r.part o).keys)
    (hname : r.inputRename r.ops.create.name member = member) : r.memberKey member = member := by
  unfold memberKey
  rw [hname]
  exact h.key_normal htaken

/-- Of the members that could identify the resource the last one does. Every other member has a
field of its name, but for a renamed one whose old name another field of the Spec has taken. -/
theorem output_member_accounted
    (hrun : runFrom (buildAll api config mode) s = (.ok (resources, failures), s'))
    (hr : r ∈ resources) :
    r.identifier? = r.lastIdentifier? (r.outputMembers api) ∧
      ∀ e ∈ r.outputMembers api, r.Accounted e.1 ∨
        (r.isIdentifier e.1 = true ∧ r.lastIdentifier? (r.outputMembers api) ≠ some e.1) ∨
        (r.inputRename r.ops.create.name e.1 ≠ e.1 ∧ e.1 ∈ r.spec.keys) := by
  obtain ⟨log, h⟩ := buildAll_logged api config mode s _ s' hrun r hr
  refine ⟨h.identifier, ?_⟩
  intro e he
  rcases h.placed e he with hidentifier | hspec | htaken | hstatus
  · by_cases hlast : r.lastIdentifier? (r.outputMembers api) = some e.1
    · exact .inl (.inl (h.identifier.trans hlast))
    · exact .inr (.inl ⟨hidentifier, hlast⟩)
  · exact .inl (.inr (.inl hspec))
  · by_cases hname : r.inputRename r.ops.create.name e.1 = e.1
    · have htaken : e.1 ∈ (r.part false).keys := htaken
      refine .inl (.inr (.inl ?_))
      rw [memberKey_of_taken h htaken hname]
      exact htaken
    · exact .inr (.inr ⟨hname, htaken⟩)
  · exact .inl (.inr (.inr hstatus))

open Sample in
theorem output_member_accounted_ticket : ∃ resources failures s r,
    ticketRun [] = (.ok (resources, failures), s) ∧ r ∈ resources ∧
      r.identifier? = r.lastIdentifier? (r.outputMembers tickets) ∧
      r.identifier? = some "TicketArn" := by
  obtain ⟨resources, failures, s, r, hrun, hr, -, -, hticket, -⟩ := tickets_alone
  obtain ⟨hidentifier, -⟩ := output_member_accounted hrun hr
  exact ⟨resources, failures, s, r, hrun, hr, hidentifier, hticket⟩

open Sample in
/-- Two members could identify tickets; the first one is nowhere. -/
theorem output_member_lost : ∃ resources failures s r,
    ticketRun [] = (.ok (resources, failures), s) ∧ r ∈ resources ∧
      ("Arn", text) ∈ r.outputMembers tickets ∧ ¬ r.Accounted "Arn" := by
  obtain ⟨resources, failures, s, r, hrun, hr, -, he, hticket, hkey⟩ := tickets_alone
  refine ⟨resources, failures, s, r, hrun, hr, he, ?_⟩
  rintro (hidentifier | hin | hin)
  · rw [hticket] at hidentifier
    exact absurd hidentifier (by decide)
  · exact hkey (List.mem_append_left _ hin)
  · exact hkey (List.mem_append_right _ hin)

end Outputs

section Overlap

/-- A name of a read-only field that is configured: an attribute, or a field with a reference. -/
def ReadOnlyKey (api : Api) (r : Resource) (k : String) : Prop :=
  (∃ e ∈ r.attributes, e.2.isReadOnly = true ∧ Name.camelOf e.1 = k) ∨
    ∃ path fc ref, r.settings.fields.get? path = some fc ∧ Sourced api true path fc ref ∧
      Name.camelOf path = k

theorem readOnlyKey_of_overlap (h : Logged api log r) (hspec : k ∈ r.spec.keys)
    (hstatus : k ∈ r.status.keys) : ReadOnlyKey api r k := by
  have hstatus : k ∈ (r.part true).keys := hstatus
  obtain ⟨w, hw, hobserved, rfl⟩ := h.mem_part.mp hstatus
  simp only [FieldLog.all, inputWrites, List.mem_append] at hw
  rcases hw with (((hw | hw) | hw) | hw) | hw
  · obtain ⟨e, -, rfl⟩ := List.mem_map.mp hw
    cases hobserved
  · obtain ⟨e, he, rfl⟩ := List.mem_map.mp hw
    exact .inl ⟨e, he, hobserved, rfl⟩
  · obtain ⟨path, fc, ref, -, -, rfl, -⟩ := h.configured false w hw
    cases hobserved
  · -- the create output is compared with the Spec
    exact absurd hspec (h.outputs w hw).2
  · obtain ⟨path, fc, ref, hget, hs, rfl, -⟩ := h.configured true w hw
    exact .inr ⟨path, fc, ref, hget, hs, rfl⟩

theorem status_of_readOnlyKey (h : Logged api log r) (hk : ReadOnlyKey api r k) :
    k ∈ r.status.keys := by
  rcases hk with ⟨e, he, hreadOnly, rfl⟩ | ⟨path, fc, ref, hget, hs, rfl⟩
  · have hkey := h.key_attribute he
    rw [hreadOnly] at hkey
    exact hkey
  · exact h.key_sourced hget hs

/-- The fields under a key are those of one part, if the other part does not have the key. -/
theorem fields_of_part (h : Logged api log r) (hk : k ∈ (r.part o).keys)
    (hother : k ∉ (r.part !o).keys) : r.fields.get? k = (r.part o).get? k := by
  rw [h.fields k (h.key_dotless hk), h.part]
  congr 1
  apply List.filter_congr
  intro w hw
  by_cases hkey : w.key = k
  · have ho : w.observed = o := by
      by_contra hne
      exact hother (h.mem_part.mpr ⟨w, hw, Bool.eq_not.mpr hne, hkey⟩)
    simp [hkey, ho]
  · simp [hkey]

/-- The field under a key is the last one that was written. -/
theorem fields_of_either (h : Logged api log r) (hk : k ∈ (r.part o).keys) :
    ∃ o', r.fields.get? k = (r.part o').get? k := by
  rw [h.fields k (h.key_dotless hk)]
  cases hlast : ((log.all api r).filter fun w => w.key == k).getLast? with
  | none =>
    obtain ⟨w, hw, -, hkey⟩ := h.mem_part.mp hk
    rw [List.getLast?_eq_none_iff, List.filter_eq_nil_iff] at hlast
    exact (hlast w hw (by simp [hkey])).elim
  | some w =>
    refine ⟨w.observed, ?_⟩
    obtain ⟨ws, hws⟩ := List.getLast?_eq_some_iff.mp hlast
    have hfilter : ((log.all api r).filter fun v => v.observed == w.observed && v.key == k) =
        ((log.all api r).filter fun v => v.key == k).filter fun v => v.observed == w.observed := by
      rw [List.filter_filter]
    rw [h.part, hfilter, hws]
    simp [lastField]

/-- The Spec and the Status share just the names of the Spec that a configured read-only field has.
What is listed under a name of one part is the field of that part, and under a shared name it is
one of the two. -/
theorem shared_key_iff
    (hrun : runFrom (buildAll api config mode) s = (.ok (resources, failures), s'))
    (hr : r ∈ resources) :
    (∀ k ∈ r.spec.keys, k ∈ r.status.keys ↔ ReadOnlyKey api r k) ∧
      (∀ k ∈ r.spec.keys, k ∉ r.status.keys → r.fields.get? k = r.spec.get? k) ∧
      (∀ k ∈ r.status.keys, k ∉ r.spec.keys → r.fields.get? k = r.status.get? k) ∧
      ∀ k ∈ r.spec.keys, r.fields.get? k = r.spec.get? k ∨ r.fields.get? k = r.status.get? k := by
  obtain ⟨log, h⟩ := buildAll_logged api config mode s _ s' hrun r hr
  refine ⟨?_, ?_, ?_, ?_⟩
  · intro k hspec
    exact ⟨readOnlyKey_of_overlap h hspec, status_of_readOnlyKey h⟩
  · intro k hspec hstatus
    have hspec : k ∈ (r.part false).keys := hspec
    exact fields_of_part h hspec hstatus
  · intro k hstatus hspec
    have hstatus : k ∈ (r.part true).keys := hstatus
    exact fields_of_part h hstatus hspec
  · intro k hspec
    have hspec : k ∈ (r.part false).keys := hspec
    obtain ⟨o, ho⟩ := fields_of_either h hspec
    cases o with
    | false => exact .inl ho
    | true => exact .inr ho

open Sample in
theorem shared_key_iff_ticket : ∃ resources failures s r,
    ticketRun [("Name", fromTicket "Name" true)] = (.ok (resources, failures), s) ∧
      r ∈ resources ∧ "Name" ∈ r.spec.keys ∧
      ("Name" ∈ r.status.keys ↔ ReadOnlyKey tickets r "Name") := by
  obtain ⟨resources, failures, s, r, hrun, hr, hkeys, -⟩ := tickets_shared
  have hspec : "Name" ∈ r.spec.keys := by simp [hkeys]
  exact ⟨resources, failures, s, r, hrun, hr, hspec, (shared_key_iff hrun hr).1 "Name" hspec⟩

open Sample in
/-- A configured read-only field stands in the Status though the Spec has its name. -/
theorem key_in_both_parts : ∃ resources failures s r,
    ticketRun [("Name", fromTicket "Name" true)] = (.ok (resources, failures), s) ∧
      r ∈ resources ∧ "Name" ∈ r.spec.keys ∧ "Name" ∈ r.status.keys := by
  obtain ⟨resources, failures, s, r, hrun, hr, hspec, hstatus⟩ := tickets_shared
  exact ⟨resources, failures, s, r, hrun, hr, by simp [hspec], by simp [hstatus]⟩

end Overlap

section Settings

/-- An entry that makes a field: an attribute, or a field that takes its reference from elsewhere. -/
def MakesField (api : Api) (r : Resource) (path : String) (fc : FieldConfig) : Prop :=
  (path, fc) ∈ r.attributes ∨ ∃ ref, Sourced api fc.isReadOnly path fc ref

theorem Logged.key_created {path : String} {fc : FieldConfig} (h : Logged api log r)
    (hget : r.settings.fields.get? path = some fc) (hmakes : MakesField api r path fc) :
    Name.camelOf path ∈ (r.part fc.isReadOnly).keys := by
  rcases hmakes with hattribute | ⟨ref, hs⟩
  · have hkey := h.key_attribute hattribute
    exact hkey
  · exact h.key_sourced hget hs

/-- A configured field has the settings that are configured for its capitalised name. These are
its own if the path is spelled so, and if nothing is configured under that name it has none. -/
theorem configured_field_settings {path : String} {fc : FieldConfig}
    (hrun : runFrom (buildAll api config mode) s = (.ok (resources, failures), s'))
    (hr : r ∈ resources) (hget : r.settings.fields.get? path = some fc)
    (hmakes : MakesField api r path fc) :
    ∃ f, (r.part fc.isReadOnly).get? (Name.camelOf path) = some f ∧
      f.config? = r.settings.fields.get? (Name.camelOf path) ∧
      (Name.camelOf path = path → f.config? = some fc) ∧
      (r.settings.fields.get? (Name.camelOf path) = none →
        f.isSecret = false ∧ f.isReadOnly = false ∧ f.isAttribute = false) := by
  obtain ⟨log, h⟩ := buildAll_logged api config mode s _ s' hrun r hr
  obtain ⟨f, hf⟩ := Table.mem_keys_iff.mp (h.key_created hget hmakes)
  have hconfig := h.part_config hf
  refine ⟨f, hf, hconfig, ?_, ?_⟩
  · intro hspelled
    rw [hconfig, hspelled, hget]
  · intro hnone
    rw [hnone] at hconfig
    simp [Field.isSecret, Field.isReadOnly, Field.isAttribute, hconfig]

namespace Sample

/-- A secret read-only field with the reference of the name of tickets. -/
def secretKey : FieldConfig := { fromTicket "Name" true with isSecret := true }

theorem secretKey_makesField (r : Resource) : MakesField tickets r "key" secretKey := by
  have hfound : sourceRef? tickets true ⟨"CreateTicket", "Name"⟩ = some text := by
    decide +kernel
  have hs : Sourced tickets true "key" secretKey text := ⟨by decide, rfl, rfl, _, rfl, hfound⟩
  exact .inr ⟨text, hs⟩

/-- The settings of the key of tickets are spelled in lower case. -/
theorem tickets_keyed : ∃ resources failures s r f,
    ticketRun [("key", secretKey)] = (.ok (resources, failures), s) ∧ r ∈ resources ∧
      r.settings.fields.get? "key" = some secretKey ∧
      r.status.get? (Name.camelOf "key") = some f ∧ f.config? = none := by
  obtain ⟨resources, failures, s, hrun, r, hr, hp⟩ := ticket_built [("key", secretKey)]
    (fun r => r.settings.fields.get? "key" == some secretKey &&
      (r.status.get? (Name.camelOf "key")).any fun f => f.config?.isNone) (by cbv)
  rw [Bool.and_eq_true, beq_iff_eq, Option.any_eq_true] at hp
  obtain ⟨hget, f, hf, hnone⟩ := hp
  exact ⟨resources, failures, s, r, f, hrun, hr, hget, hf, Option.isNone_iff_eq_none.mp hnone⟩

end Sample

open Sample in
theorem configured_field_settings_ticket : ∃ resources failures s r f,
    ticketRun [("key", secretKey)] = (.ok (resources, failures), s) ∧ r ∈ resources ∧
      r.settings.fields.get? "key" = some secretKey ∧
      r.status.get? (Name.camelOf "key") = some f ∧
      f.config? = r.settings.fields.get? (Name.camelOf "key") := by
  obtain ⟨resources, failures, s, r, -, hrun, hr, hget, -, -⟩ := tickets_keyed
  obtain ⟨f, hf, hconfig, -⟩ := configured_field_settings hrun hr hget (secretKey_makesField r)
  exact ⟨resources, failures, s, r, f, hrun, hr, hget, hf, hconfig⟩

open Sample in
/-- The field `Key` is no secret and not read-only, since its settings are spelled `key`. -/
theorem configured_secret_lost : ∃ resources failures s r f,
    ticketRun [("key", secretKey)] = (.ok (resources, failures), s) ∧ r ∈ resources ∧
      r.settings.fields.get? "key" = some secretKey ∧ MakesField tickets r "key" secretKey ∧
      r.status.get? (Name.camelOf "key") = some f ∧
      (secretKey.isSecret = true ∧ f.isSecret = false) ∧
      secretKey.isReadOnly = true ∧ f.isReadOnly = false := by
  obtain ⟨resources, failures, s, r, f, hrun, hr, hget, hf, hnone⟩ := tickets_keyed
  refine ⟨resources, failures, s, r, f, hrun, hr, hget, secretKey_makesField r, hf, ⟨rfl, ?_⟩, rfl, ?_⟩
  · simp [Field.isSecret, hnone]
  · simp [Field.isReadOnly, hnone]

end Settings

end Resource

end ResourceVersions
