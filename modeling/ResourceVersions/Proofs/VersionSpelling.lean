import Mathlib.Data.List.TakeWhile
import Mathlib.Tactic.Ring
import ResourceVersions.Proofs.Except
import ResourceVersions.Proofs.IntegerText
import ResourceVersions.Proofs.VersionOrder

/-! # Spellings of versions

A text names a version by its numbers, which may be written with digits of any script and with
superfluous zeros. So a version has many spellings. One of them is written with ASCII digits and
without superfluous zeros. Versions are strictly ordered, but texts only as far as they spell
different versions. -/
namespace ResourceVersions.Version

open Text Number

variable {s t rest eol : List Char} {ds es : List Nat} {n : Nat} {v w : Version}
  {a b text : String} {texts texts' sorted : List String} {track : Track}

/-- Digits of any scripts that write a number, no more than a number may have. -/
def Writes (s : List Char) (n : Nat) : Prop :=
  ∃ ds, ds ≠ [] ∧ ds.length ≤ maxIntDigits ∧ s.map digitValue? = ds.map some ∧ ofDigits ds = n

/-- The texts that name a version. -/
inductive Spells : List Char → Version → Prop
  | stable {s : List Char} {n : Nat} : Writes s n → Spells ('v' :: s) ⟨n, .ga, 0⟩
  | early {s t : List Char} {n m : Nat} {track : Track} : Writes s n → track ≠ .ga → Writes t m →
      Spells ('v' :: (s ++ (track.text.toList ++ t))) ⟨n, track, m⟩

/-- A version in ASCII digits and without superfluous zeros. -/
def canonical (v : Version) : String :=
  "v" ++ toString v.major ++
    match v.track with
    | .ga => ""
    | track => track.text ++ toString v.minor

section Digits

/-- Where every character is a digit, none is left out. -/
theorem map_some_filterMap {f : Char → Option Nat} (h : ∀ c ∈ s, (f c).isSome = true) :
    (s.filterMap f).map some = s.map f := by
  induction s with
  | nil => rfl
  | cons c s ih =>
    obtain ⟨hc, hs⟩ := List.forall_mem_cons.mp h
    obtain ⟨d, hd⟩ := Option.isSome_iff_exists.mp hc
    rw [List.filterMap_cons_some hd, List.map_cons, List.map_cons, ih hs, hd]

theorem digits_append (hs : s.map digitValue? = ds.map some)
    (hrest : ∀ c ∈ rest.head?, digitValue? c = none) : digits (s ++ rest) = (ds, rest) := by
  induction s generalizing ds with
  | nil =>
    obtain rfl : ds = [] := by simpa using hs.symm
    cases rest with
    | nil => rfl
    | cons c rest =>
      have hc := hrest c rfl
      simp [digits, hc]
  | cons c s ih =>
    cases ds with
    | nil => cases hs
    | cons d ds =>
      obtain ⟨hc, hs⟩ := List.cons.inj hs
      have hsplit := ih hs
      simp only [digits, Prod.mk.injEq] at hsplit ⊢
      rw [List.cons_append, List.takeWhile_cons_of_pos (by simp [hc]),
        List.dropWhile_cons_of_pos (by simp [hc]), List.filterMap_cons_some hc]
      exact ⟨congrArg _ hsplit.1, hsplit.2⟩

/-- What stands in front of the rest are the digits. -/
theorem digits_spec (h : digits s = (ds, rest)) :
    ∃ t, s = t ++ rest ∧ t.map digitValue? = ds.map some := by
  obtain ⟨hds, hrest⟩ := Prod.mk.inj h
  refine ⟨s.takeWhile fun c => (digitValue? c).isSome, ?_, ?_⟩
  · rw [← hrest, List.takeWhile_append_dropWhile]
  · rw [← hds]
    symm
    apply map_some_filterMap
    intro c hc
    exact List.mem_takeWhile_imp (p := fun c => (digitValue? c).isSome) hc

theorem number_ok_iff : number ds = .ok n ↔ ds.length ≤ maxIntDigits ∧ ofDigits ds = n := by
  unfold number
  split
  · rename_i hlong
    simp [Nat.not_le.mpr hlong]
  · rename_i hlong
    simp [Nat.le_of_not_lt hlong]

theorem atEnd_iff : atEnd s = true ↔ s ∈ [[], ['\n']] := by
  unfold atEnd
  split <;> simp_all

theorem track?_eq_some_iff :
    track? s = some (track, rest) ↔ track ≠ .ga ∧ s = track.text.toList ++ rest := by
  constructor
  · intro h
    unfold track? at h
    split at h
    · cases h
      exact ⟨by decide, rfl⟩
    · cases h
      exact ⟨by decide, rfl⟩
    · cases h
  · rintro ⟨htrack, rfl⟩
    cases track with
    | alpha => rfl
    | beta => rfl
    | ga => exact absurd rfl htrack

theorem line_break_no_digit : digitValue? '\n' = none := by decide

theorem eol_no_digit (h : eol ∈ [[], ['\n']]) : ∀ c ∈ eol.head?, digitValue? c = none := by
  simp only [List.mem_cons, List.not_mem_nil, or_false] at h
  rcases h with rfl | rfl
  · simp
  · simp [line_break_no_digit]

/-- No track begins with a digit, and none stands at the end of a text. -/
theorem track_start (track : Track) : ∃ c u, track.text.toList = c :: u ∧ digitValue? c = none ∧
    ∀ rest, atEnd (c :: u ++ rest) = false := by
  cases track with
  | alpha => exact ⟨'a', _, rfl, by decide, fun _ => rfl⟩
  | beta => exact ⟨'b', _, rfl, by decide, fun _ => rfl⟩
  | ga => exact ⟨'g', _, rfl, by decide, fun _ => rfl⟩

end Digits

section Parse

/-- What a text looks like that has the parts of a version. -/
theorem parts?_cases {pre : Option (Track × List Nat)} (h : parts? s = some (ds, pre)) :
    ∃ t rest, s = 'v' :: (t ++ rest) ∧ ds ≠ [] ∧ t.map digitValue? = ds.map some ∧
      ((pre = none ∧ rest ∈ [[], ['\n']]) ∨
        ∃ track es u eol, pre = some (track, es) ∧ track ≠ .ga ∧
          rest = track.text.toList ++ (u ++ eol) ∧ es ≠ [] ∧ u.map digitValue? = es.map some ∧
          eol ∈ [[], ['\n']]) := by
  unfold parts? at h
  split at h
  · split at h
    · cases h
    · rename_i s' major rest hne hmajor
      obtain ⟨t, rfl, ht⟩ := digits_spec hmajor
      refine ⟨t, rest, rfl, ?_⟩
      split at h
      · rename_i hend
        cases h
        exact ⟨hne, ht, .inl ⟨rfl, atEnd_iff.mp hend⟩⟩
      · split at h
        · cases h
        · rename_i track rest' hfound
          obtain ⟨htrack, rfl⟩ := track?_eq_some_iff.mp hfound
          split at h
          · cases h
          · rename_i minor eol hne' hminor
            obtain ⟨u, rfl, hu⟩ := digits_spec hminor
            split at h
            · rename_i hend
              cases h
              exact ⟨hne, ht, .inr ⟨track, minor, u, eol, rfl, htrack, rfl, hne', hu,
                atEnd_iff.mp hend⟩⟩
            · cases h
  · cases h

theorem parts?_stable (hne : ds ≠ []) (hs : s.map digitValue? = ds.map some)
    (heol : eol ∈ [[], ['\n']]) : parts? ('v' :: (s ++ eol)) = some (ds, none) := by
  obtain ⟨d, ds, rfl⟩ := List.exists_cons_of_ne_nil hne
  rw [parts?, digits_append hs (eol_no_digit heol)]
  dsimp only
  rw [if_pos (atEnd_iff.mpr heol)]

theorem parts?_early (hds : ds ≠ []) (hs : s.map digitValue? = ds.map some) (htrack : track ≠ .ga)
    (hes : es ≠ []) (ht : t.map digitValue? = es.map some) (heol : eol ∈ [[], ['\n']]) :
    parts? ('v' :: (s ++ (track.text.toList ++ (t ++ eol)))) = some (ds, some (track, es)) := by
  obtain ⟨d, ds, rfl⟩ := List.exists_cons_of_ne_nil hds
  obtain ⟨e, es, rfl⟩ := List.exists_cons_of_ne_nil hes
  obtain ⟨c, u, hstart, hc, hunder⟩ := track_start track
  have hmajor : digits (s ++ (track.text.toList ++ (t ++ eol))) =
      (d :: ds, track.text.toList ++ (t ++ eol)) := by
    apply digits_append hs
    simp [hstart, hc]
  have hmore : atEnd (track.text.toList ++ (t ++ eol)) = false := by
    rw [hstart]
    exact hunder _
  rw [parts?, hmajor]
  dsimp only
  rw [hmore, if_neg Bool.false_ne_true, track?_eq_some_iff.mpr ⟨htrack, rfl⟩]
  dsimp only
  rw [digits_append ht (eol_no_digit heol)]
  dsimp only
  rw [if_pos (atEnd_iff.mpr heol)]

/-- One line break may stand behind the spelling of a version. -/
theorem parse_ok_iff : parse text = .ok v ↔
    ∃ s eol, text.toList = s ++ eol ∧ Spells s v ∧ eol ∈ [[], ['\n']] := by
  constructor
  · intro h
    unfold parse at h
    split at h
    · cases h
    · rename_i major hparts
      obtain ⟨n, hn, h⟩ := Fallible.bind_ok_iff.mp h
      cases h
      obtain ⟨t, eol, hs, hne, ht, ⟨-, heol⟩ | ⟨track, es, u, eol, hnone, -⟩⟩ := parts?_cases hparts
      · obtain ⟨hfew, hvalue⟩ := number_ok_iff.mp hn
        exact ⟨_, eol, hs, .stable ⟨major, hne, hfew, ht, hvalue⟩, heol⟩
      · cases hnone
    · rename_i major track minor hparts
      obtain ⟨n, hn, h⟩ := Fallible.bind_ok_iff.mp h
      obtain ⟨m, hm, h⟩ := Fallible.bind_ok_iff.mp h
      cases h
      obtain ⟨t, rest, hs, hds, ht,
        ⟨hsome, -⟩ | ⟨_, _, u, eol, hsome, htrack, rfl, hes, hu, heol⟩⟩ := parts?_cases hparts
      · cases hsome
      · cases hsome
        obtain ⟨hfew, hvalue⟩ := number_ok_iff.mp hn
        obtain ⟨hfew', hvalue'⟩ := number_ok_iff.mp hm
        refine ⟨'v' :: (t ++ (track.text.toList ++ u)), eol, ?_, ?_, heol⟩
        · rw [hs, List.cons_append, List.append_assoc, List.append_assoc]
        · exact .early ⟨major, hds, hfew, ht, hvalue⟩ htrack ⟨minor, hes, hfew', hu, hvalue'⟩
  · rintro ⟨s, eol, hs, hspells, heol⟩
    cases hspells with
    | stable hn =>
      obtain ⟨ds, hne, hfew, hdigits, hvalue⟩ := hn
      unfold parse
      rw [hs, List.cons_append, parts?_stable hne hdigits heol]
      dsimp only
      rw [number_ok_iff.mpr ⟨hfew, hvalue⟩]
      rfl
    | early hn htrack hm =>
      obtain ⟨ds, hds, hfew, hdigits, hvalue⟩ := hn
      obtain ⟨es, hes, hfew', hdigits', hvalue'⟩ := hm
      unfold parse
      rw [hs, List.cons_append, List.append_assoc, List.append_assoc,
        parts?_early hds hdigits htrack hes hdigits' heol]
      dsimp only
      rw [number_ok_iff.mpr ⟨hfew, hvalue⟩, number_ok_iff.mpr ⟨hfew', hvalue'⟩]
      rfl

theorem Spells.parse_eq (h : Spells text.toList v) : parse text = .ok v :=
  parse_ok_iff.mpr ⟨_, [], (List.append_nil _).symm, h, List.mem_cons_self⟩

/-- A text of one line is read as a version exactly if it spells it. -/
theorem parse_line_iff (hline : '\n' ∉ text.toList) :
    parse text = .ok v ↔ Spells text.toList v := by
  refine ⟨?_, Spells.parse_eq⟩
  intro h
  obtain ⟨s, eol, hs, hspells, heol⟩ := parse_ok_iff.mp h
  simp only [List.mem_cons, List.not_mem_nil, or_false] at heol
  rcases heol with rfl | rfl
  · rwa [hs, List.append_nil]
  · exact absurd (by simp [hs]) hline

end Parse

section Canonical

theorem ofDigits_lt (hs : s.map digitValue? = ds.map some) : ofDigits ds < 10 ^ ds.length := by
  have hdigits : ∀ d ∈ ds, d < 10 := by
    intro d hd
    have hin : some d ∈ s.map digitValue? := hs ▸ List.mem_map_of_mem hd
    obtain ⟨c, -, hc⟩ := List.mem_map.mp hin
    exact digitValue?_lt hc
  have hfold : ∀ (l : List Nat) (i : Nat), (∀ d ∈ l, d < 10) →
      l.foldl (fun n d => 10 * n + d) i < (i + 1) * 10 ^ l.length := by
    intro l
    induction l with
    | nil => intro i _; simp
    | cons d l ih =>
      intro i hl
      obtain ⟨hd, hl⟩ := List.forall_mem_cons.mp hl
      calc (d :: l).foldl (fun n d => 10 * n + d) i
          < (10 * i + d + 1) * 10 ^ l.length := ih _ hl
        _ ≤ (10 * (i + 1)) * 10 ^ l.length := Nat.mul_le_mul_right _ (by omega)
        _ = (i + 1) * 10 ^ (d :: l).length := by rw [List.length_cons, Nat.pow_succ]; ring
  simpa [ofDigits] using hfold ds 0 hdigits

/-- A number that can be written can be written with ASCII digits and no superfluous zeros. -/
theorem Writes.toDigits (h : Writes s n) : Writes (Nat.toDigits 10 n) n := by
  obtain ⟨ds, hne, hfew, hdigits, rfl⟩ := h
  have hascii : ∀ c ∈ Nat.toDigits 10 (ofDigits ds), isAsciiDigit c = true :=
    fun c hc => isAsciiDigit_toDigits hc
  have hlength : (Nat.toDigits 10 (ofDigits ds)).length ≤ ds.length := by
    rw [Nat.length_toDigits_le_iff (by decide) (List.length_pos_of_ne_nil hne)]
    exact ofDigits_lt hdigits
  refine ⟨(Nat.toDigits 10 (ofDigits ds)).filterMap asciiDigit?, ?_, ?_, ?_, ofDigits_toDigits _⟩
  · rw [← List.length_pos_iff, length_filterMap_digits hascii]
    exact Nat.length_toDigits_pos
  · rw [length_filterMap_digits hascii]
    exact hlength.trans hfew
  · rw [map_some_filterMap hascii]
    apply List.map_congr_left
    intro c hc
    rw [digitValue?_eq (hascii c hc), asciiDigit?_eq (hascii c hc)]

theorem parse_canonical (h : parse text = .ok v) : parse v.canonical = .ok v := by
  obtain ⟨s, eol, -, hspells, -⟩ := parse_ok_iff.mp h
  apply Spells.parse_eq
  cases hspells with
  | stable hn =>
    have hspelled := Spells.stable hn.toDigits
    simpa [canonical, Nat.toString_eq_repr, Nat.toList_repr] using hspelled
  | early hn htrack hm =>
    have hspelled := Spells.early hn.toDigits htrack hm.toDigits
    rename_i track
    cases track with
    | alpha => simpa [canonical, Nat.toString_eq_repr, Nat.toList_repr] using hspelled
    | beta => simpa [canonical, Nat.toString_eq_repr, Nat.toList_repr] using hspelled
    | ga => exact absurd rfl htrack

theorem key_eq_iff (ha : parse a = .ok v) (hb : parse b = .ok w) :
    v.key = w.key ↔ v.canonical = w.canonical := by
  rw [key_injective.eq_iff]
  constructor
  · rintro rfl
    rfl
  · intro h
    have hv := parse_canonical ha
    rw [h, parse_canonical hb] at hv
    cases hv
    rfl

end Canonical

section Order

/-- Major numbers first, then tracks, then minor numbers. -/
def Older (v w : Version) : Prop :=
  v.major < w.major ∨ v.major = w.major ∧
    (v.track.rank < w.track.rank ∨ v.track = w.track ∧ v.minor < w.minor)

theorem older_iff_key : Older v w ↔ v.key < w.key := by
  have htrack : v.track = w.track ↔ v.track.rank = w.track.rank := rank_injective.eq_iff.symm
  simp only [Older, key, Prod.Lex.toLex_lt_toLex, htrack]

theorem older_strictTotalOrder : IsStrictTotalOrder Version Older where
  trichotomous v w hvw hwv := by
    rw [older_iff_key] at hvw hwv
    exact key_injective (le_antisymm (not_lt.mp hwv) (not_lt.mp hvw))
  irrefl v h := lt_irrefl _ (older_iff_key.mp h)
  trans u v w huv hvw := by
    rw [older_iff_key] at *
    exact huv.trans hvw

end Order

section Sorting

def Accepted (text : String) : Prop := ∃ v, parse text = .ok v

theorem named_cons (h : parse text = .ok v) : named (text :: texts) = (v, text) :: named texts := by
  rw [named, List.filterMap_cons, h]
  rfl

theorem parseAll_accepted (h : ∀ t ∈ texts, Accepted t) : parseAll texts = .ok (named texts) := by
  induction texts with
  | nil => rfl
  | cons t texts ih =>
    obtain ⟨⟨v, hv⟩, hrest⟩ := List.forall_mem_cons.mp h
    rw [parseAll, hv, ih hrest, named_cons hv]
    rfl

theorem named_texts (h : ∀ t ∈ texts, Accepted t) : (named texts).map Prod.snd = texts := by
  induction texts with
  | nil => rfl
  | cons t texts ih =>
    obtain ⟨⟨v, hv⟩, hrest⟩ := List.forall_mem_cons.mp h
    rw [named_cons hv, List.map_cons, ih hrest]

theorem named_perm (h : texts'.Perm texts) : (named texts').Perm (named texts) := h.filterMap _

theorem sortTexts_accepted (h : ∀ t ∈ texts, Accepted t) :
    sortTexts texts = .ok ((oldestFirst (named texts)).map Prod.snd) := by
  rw [sortTexts, parseAll_accepted h]
  rfl

/-- The texts in an order in which no version comes before an older one. -/
structure Sorted (texts sorted : List String) : Prop where
  perm : sorted.Perm texts
  ordered : sorted.Pairwise fun a b => ∀ v w, parse a = .ok v → parse b = .ok w → ¬Older w v

theorem parse_of_mem {e : Version × String} (h : e ∈ oldestFirst (named texts)) :
    parse e.2 = .ok e.1 :=
  (mem_named.mp ((oldestFirst_perm _).mem_iff.mp h)).2

theorem sorted_accepted (h : ∀ t ∈ texts, Accepted t) :
    Sorted texts ((oldestFirst (named texts)).map Prod.snd) := by
  constructor
  case perm =>
    have hperm := (oldestFirst_perm (named texts)).map Prod.snd
    rwa [named_texts h] at hperm
  case ordered =>
    rw [List.pairwise_map]
    refine (oldestFirst_pairwise (named texts)).imp_of_mem ?_
    intro e f he hf hle v w hv hw hyounger
    cases (parse_of_mem he).symm.trans hv
    cases (parse_of_mem hf).symm.trans hw
    exact absurd (older_iff_key.mp hyounger) (not_lt.mpr hle)

/-- The versions come in one order, whatever order their texts had. -/
theorem sorted_versions (hperm : texts'.Perm texts) :
    ((oldestFirst (named texts')).map Prod.snd).map parse =
      ((oldestFirst (named texts)).map Prod.snd).map parse := by
  have hparse : ∀ l : List String, ((oldestFirst (named l)).map Prod.snd).map parse =
      ((oldestFirst (named l)).map Prod.fst).map Except.ok := by
    intro l
    rw [List.map_map, List.map_map]
    exact List.map_congr_left fun e he => parse_of_mem he
  have hkeys : ∀ l : List String,
      ((oldestFirst (named l)).map Prod.fst).Pairwise fun v w => v.key ≤ w.key := by
    intro l
    exact List.pairwise_map.mpr (oldestFirst_pairwise _)
  have hversions : (oldestFirst (named texts')).map Prod.fst =
      (oldestFirst (named texts)).map Prod.fst := by
    have hsorted := ((oldestFirst_perm _).trans (named_perm hperm)).trans (oldestFirst_perm _).symm
    exact (hsorted.map Prod.fst).eq_of_pairwise
      (fun v w _ _ hle hge => key_injective (le_antisymm hle hge)) (hkeys _) (hkeys _)
  rw [hparse, hparse, hversions]

/-- Two texts cannot stand in both orders if none stands twice. -/
theorem eq_of_both_orders {l : List String} (hl : l.Nodup) (hab : [a, b].Sublist l)
    (hba : [b, a].Sublist l) : a = b := by
  induction l with
  | nil => cases hab
  | cons x l ih =>
    obtain ⟨hx, hl⟩ := List.nodup_cons.mp hl
    cases hab with
    | cons _ hab =>
      cases hba with
      | cons _ hba => exact ih hl hab hba
      | cons_cons _ hba => exact absurd (hab.subset (by simp)) hx
    | cons_cons _ hb =>
      cases hba with
      | cons _ hba => exact absurd (hba.subset (by simp)) hx
      | cons_cons _ ha => rfl

/-- Of two spellings of one version the first one stays in front. -/
theorem sorted_spellings (h : parse a = parse b) (hv : parse a = .ok v) (rest : List String) :
    [a, b].Sublist ((oldestFirst (named (a :: b :: rest))).map Prod.snd) := by
  have hfront : [(v, a), (v, b)].Sublist (named (a :: b :: rest)) := by
    rw [named_cons hv, named_cons (h ▸ hv)]
    simp
  exact (oldestFirst_stable hfront rfl).map Prod.snd

/-- Sorting gives one order of the texts exactly if no two of them spell one version. -/
theorem sortTexts_unique_iff (hnodup : texts.Nodup) (h : ∀ t ∈ texts, Accepted t) :
    (∀ texts', texts'.Perm texts → sortTexts texts' = sortTexts texts) ↔
      ∀ a ∈ texts, ∀ b ∈ texts, parse a = parse b → a = b := by
  have haccepted : ∀ l : List String, l.Perm texts → ∀ t ∈ l, Accepted t :=
    fun l hperm t ht => h t (hperm.mem_iff.mp ht)
  constructor
  · intro hone a ha b hb hparse
    obtain ⟨v, hv⟩ := h a ha
    by_contra hne
    have hin : b ∈ texts.erase a := (List.mem_erase_of_ne (Ne.symm hne)).mpr hb
    have hperm : (a :: b :: (texts.erase a).erase b).Perm texts :=
      ((List.perm_cons_erase ha).trans ((List.perm_cons_erase hin).cons a)).symm
    have hswap : (b :: a :: (texts.erase a).erase b).Perm texts := (List.Perm.swap ..).trans hperm
    have hsame := (hone _ hperm).trans (hone _ hswap).symm
    rw [sortTexts_accepted (haccepted _ hperm), sortTexts_accepted (haccepted _ hswap),
      Except.ok.injEq] at hsame
    have hsorted := sorted_accepted (haccepted _ hperm)
    apply hne
    apply eq_of_both_orders (hsorted.perm.nodup_iff.mpr (hperm.nodup_iff.mpr hnodup))
    · exact sorted_spellings hparse hv _
    · rw [hsame]
      exact sorted_spellings hparse.symm (hparse ▸ hv) _
  · intro hdistinct texts' hperm
    rw [sortTexts_accepted (haccepted _ hperm), sortTexts_accepted h,
      oldestFirst_eq (named_perm hperm)]
    rintro ⟨v, t⟩ ha ⟨w, u⟩ hb hvw
    dsimp only at hvw
    subst hvw
    obtain ⟨ht, hv⟩ := mem_named.mp ha
    obtain ⟨hu, hw⟩ := mem_named.mp hb
    rw [hdistinct t (hperm.mem_iff.mp ht) u (hperm.mem_iff.mp hu) (hv.trans hw.symm)]

/-- A registry sorts the versions of its table. -/
theorem registry_sorted (r : Registry) (h : ∀ t ∈ r.infos.keys, Accepted t) :
    sortTexts r.infos.keys = .ok r.versions :=
  sortTexts_accepted h

end Sorting

/-- Versions are strictly ordered, and a text of one line is accepted exactly if it spells a
version. Two accepted texts have one key exactly if the canonical spellings of their versions agree.
Sorting gives one order of versions, but one order of texts exactly if no two of them spell one
version. The versions of a registry are sorted in this way. -/
theorem spellings_sorted_once_iff :
    IsStrictTotalOrder Version Older ∧
    (∀ text v, '\n' ∉ text.toList → (parse text = .ok v ↔ Spells text.toList v)) ∧
    (∀ a b v w, parse a = .ok v → parse b = .ok w →
      parse v.canonical = .ok v ∧ (v.key = w.key ↔ v.canonical = w.canonical)) ∧
    (∀ texts : List String, texts.Nodup → (∀ t ∈ texts, Accepted t) →
      (∃ sorted, sortTexts texts = .ok sorted ∧ Sorted texts sorted ∧
        ∀ texts', texts'.Perm texts →
          ∃ sorted', sortTexts texts' = .ok sorted' ∧ sorted'.map parse = sorted.map parse) ∧
      ((∀ texts', texts'.Perm texts → sortTexts texts' = sortTexts texts) ↔
        ∀ a ∈ texts, ∀ b ∈ texts, parse a = parse b → a = b)) ∧
    ∀ r : Registry, (∀ t ∈ r.infos.keys, Accepted t) → sortTexts r.infos.keys = .ok r.versions := by
  refine ⟨older_strictTotalOrder, fun _ _ => parse_line_iff, ?_, ?_, registry_sorted⟩
  · intro a b v w ha hb
    exact ⟨parse_canonical ha, key_eq_iff ha hb⟩
  · intro texts hnodup h
    refine ⟨⟨_, sortTexts_accepted h, sorted_accepted h, ?_⟩, sortTexts_unique_iff hnodup h⟩
    intro texts' hperm
    refine ⟨_, sortTexts_accepted ?_, sorted_versions hperm⟩
    intro t ht
    exact h t (hperm.mem_iff.mp ht)

def first : Version := ⟨1, .ga, 0⟩

/-- A registry that lists one version twice. -/
def doubled : Registry := ⟨"v1", none, .ofList [("v1", {}), ("v01", {})], ∅⟩

theorem doubled_accepted : ∀ t ∈ ["v1", "v01"], Accepted t := by
  intro t ht
  simp only [List.mem_cons, List.not_mem_nil, or_false] at ht
  rcases ht with rfl | rfl
  · exact ⟨first, rfl⟩
  · exact ⟨first, rfl⟩

/-- The order of `v1` and `v01` is the one in which they are given. -/
theorem spellings_sorted_once_iff_zero :
    Spells "v01".toList first ∧
    parse "v1" = .ok first ∧ parse "v01" = .ok first ∧
    parse first.canonical = .ok first ∧
    (["v1", "v01"].Nodup ∧ ∀ t ∈ ["v1", "v01"], Accepted t) ∧
    (∃ sorted, sortTexts ["v1", "v01"] = .ok sorted ∧ Sorted ["v1", "v01"] sorted) ∧
    (¬∀ texts', texts'.Perm ["v1", "v01"] → sortTexts texts' = sortTexts ["v1", "v01"]) ∧
    sortTexts doubled.infos.keys = .ok doubled.versions := by
  obtain ⟨-, hspells, hkeys, hsort, hregistry⟩ := spellings_sorted_once_iff
  have hnodup : ["v1", "v01"].Nodup := by decide
  obtain ⟨⟨sorted, hok, hsorted, -⟩, hunique⟩ := hsort _ hnodup doubled_accepted
  refine ⟨(hspells "v01" first (by decide)).mp rfl, rfl, rfl,
    (hkeys "v1" "v01" first first rfl rfl).1, ⟨hnodup, doubled_accepted⟩,
    ⟨sorted, hok, hsorted⟩, ?_, hregistry doubled doubled_accepted⟩
  intro hone
  exact absurd (hunique.mp hone "v1" (by simp) "v01" (by simp) rfl) (by decide)

/-- Spellings of one version stay as they are. -/
theorem sortTexts_same (ha : parse a = .ok v) (hb : parse b = .ok v) :
    sortTexts [a, b] = .ok [a, b] := by
  have haccepted : ∀ t ∈ [a, b], Accepted t := by
    simpa using ⟨⟨v, ha⟩, ⟨v, hb⟩⟩
  have hsorted : oldestFirst [(v, a), (v, b)] = [(v, a), (v, b)] := by
    apply List.mergeSort_of_pairwise
    simp [le_iff_key]
  rw [sortTexts_accepted haccepted, named_cons ha, named_cons hb]
  exact congrArg (fun l => Except.ok (l.map Prod.snd)) hsorted

/-- A superfluous zero makes another text with the same key, so that two orders are sorted. -/
theorem version_spelled_again : parse "v1" = .ok first ∧ parse "v01" = .ok first ∧ "v1" ≠ "v01" ∧
    sortTexts ["v1", "v01"] = .ok ["v1", "v01"] ∧ sortTexts ["v01", "v1"] = .ok ["v01", "v1"] :=
  ⟨rfl, rfl, by decide, sortTexts_same (v := first) rfl rfl, sortTexts_same (v := first) rfl rfl⟩

end ResourceVersions.Version
