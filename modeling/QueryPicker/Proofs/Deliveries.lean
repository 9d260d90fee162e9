import Mathlib
import QueryPicker.Exchange.Run

/-!
# What deliveries carry

A body that is JSON is never blank, so whatever is read of it makes the response. A failure on the
way, a blank body and a body that is no response all give responses that report an error. What is
left are replies that report none.
-/

namespace QueryPicker

namespace Text

theorem isBlank_of_isDigit {c : Char} (h : c.isDigit = true) : isBlank c = false := by
  have hrange : 48 ≤ c.toNat ∧ c.toNat ≤ 57 := by
    simpa [Char.isDigit, UInt32.le_iff_toNat_le] using h
  simp only [isBlank, Bool.or_eq_false_iff, Bool.and_eq_false_iff, decide_eq_false_iff_not,
    beq_eq_false_iff_ne]
  omega

end Text

namespace Json

/-- Not all blank characters are spaces of JSON, but no value begins with one of the others
either. -/
theorem Reader.value_of_isBlank (skim : Bool) (depth : Nat) {cs : List Char}
    (h : ∀ c ∈ cs, Text.isBlank c = true) : ∃ e, value skim depth cs = .error e := by
  cases hrest : skipSpace cs with
  | nil => exact ⟨.endInValue, by rw [value, hrest]⟩
  | cons c rest =>
    have hmem : c ∈ skipSpace cs := hrest ▸ List.mem_cons_self ..
    have hblank : Text.isBlank c = true := h c ((List.dropWhile_sublist isSpace).subset hmem)
    have hne : ∀ d, Text.isBlank d = false → c ≠ d := by
      rintro d hd rfl
      rw [hblank] at hd
      cases hd
    have hdigit : c.isDigit = false := by
      by_contra hdigit
      rw [Text.isBlank_of_isDigit (Bool.not_eq_false _ ▸ hdigit)] at hblank
      cases hblank
    refine ⟨.expectedValue, ?_⟩
    rw [value, hrest]
    simp [hdigit, hne 'n' rfl, hne 't' rfl, hne 'f' rfl, hne '"' rfl, hne '-' rfl, hne '[' rfl,
      hne '\x7b' rfl]

theorem isBlankText_of_parse {body : String} {value : Json} (h : parse body = .ok value) :
    Text.isBlankText body = false := by
  by_contra hblank
  rw [Bool.not_eq_false, Text.isBlankText, List.all_eq_true] at hblank
  obtain ⟨e, he⟩ := Reader.value_of_isBlank false Reader.depthLimit hblank
  rw [parse, readAll, he] at h
  cases h

end Json

namespace Response

theorem ofJson?_object (members : Json.Members) : ∃ r, ofJson? (.object members) = some r ∧
    r.data? = (Entries.get? members "data").bind notNull? ∧
      r.errors? = ((Entries.get? members "errors").bind Json.array?).map
        (·.filterMap ResponseError.ofJson?) :=
  ⟨_, rfl, rfl, rfl⟩

theorem read_eq_ok_iff {body : String} {r : Response} : read body = .ok r ↔
    ∃ members, Json.parse body = .ok (.object members) ∧ ofJson? (.object members) = some r := by
  rw [read]
  cases hbody : Json.parse body with
  | error e => simp
  | ok value => cases value <;> simp [ofJson?, Json.members?]

/-- Only objects count as errors. -/
theorem hasErrors_iff {members : Json.Members} {r : Response}
    (h : ofJson? (.object members) = some r) : r.hasErrors = true ↔
      ∃ items, Entries.get? members "errors" = some (.array items) ∧
        ∃ item ∈ items, item.isObject = true := by
  obtain ⟨r', hr', -, herrors⟩ := ofJson?_object members
  obtain rfl : r' = r := Option.some.inj (hr'.symm.trans h)
  have hobject : ∀ item, (ResponseError.ofJson? item).isSome = item.isObject := fun item => by
    cases item <;> rfl
  have hkept : ∀ items : List Json, items.filterMap ResponseError.ofJson? ≠ [] ↔
      ∃ item ∈ items, item.isObject = true := fun items => by
    rw [Ne, List.filterMap_eq_nil_iff]
    simp only [← hobject, Option.isSome_iff_ne_none, not_forall, exists_prop]
  rw [hasErrors, errors, herrors, Bool.not_eq_true', List.isEmpty_eq_false_iff]
  cases hget : Entries.get? members "errors" with
  | none => simp
  | some member => cases member <;> simp [Json.array?, hkept]

theorem hasErrors_eq_false_iff {members : Json.Members} {r : Response}
    (h : ofJson? (.object members) = some r) : r.hasErrors = false ↔
      ∀ items, Entries.get? members "errors" = some (.array items) →
        ∀ item ∈ items, item.isObject = false := by
  rw [← Bool.not_eq_true, hasErrors_iff h]
  simp only [not_exists, not_and, Bool.not_eq_true]

theorem notNull?_eq_some_iff {value data : Json} :
    notNull? value = some data ↔ value = data ∧ data ≠ .null := by
  constructor
  · intro h
    cases value <;> cases h <;> exact ⟨rfl, nofun⟩
  · rintro ⟨rfl, hnull⟩
    cases value <;> first | rfl | exact absurd rfl hnull

/-- Data that is null counts as absent. -/
theorem data?_eq_some_iff {members : Json.Members} {r : Response} {data : Json}
    (h : ofJson? (.object members) = some r) :
    r.data? = some data ↔ Entries.get? members "data" = some data ∧ data ≠ .null := by
  obtain ⟨r', hr', hdata, -⟩ := ofJson?_object members
  obtain rfl : r' = r := Option.some.inj (hr'.symm.trans h)
  rw [hdata, Option.bind_eq_some_iff]
  constructor
  · rintro ⟨value, hget, hvalue⟩
    obtain ⟨rfl, hnull⟩ := notNull?_eq_some_iff.mp hvalue
    exact ⟨hget, hnull⟩
  · rintro ⟨hget, hnull⟩
    exact ⟨data, hget, notNull?_eq_some_iff.mpr ⟨rfl, hnull⟩⟩

end Response

namespace Delivery

theorem response_of_read {status : Nat} {body : String} {r : Response}
    (h : Response.read body = .ok r) : (replied status body).response = r := by
  obtain ⟨members, hbody, -⟩ := Response.read_eq_ok_iff.mp h
  rw [response, if_neg (by simp [Json.isBlankText_of_parse hbody]), h]

/-- What is no reply that can be read reports an error. -/
theorem read_or_hasErrors (d : Delivery) : d.response.hasErrors = true ∨
    ∃ status body, d = .replied status body ∧ Response.read body = .ok d.response := by
  cases d with
  | failed message => exact .inl rfl
  | replied status body =>
    cases hread : Response.read body with
    | ok r => exact .inr ⟨status, body, rfl, by rw [hread, response_of_read hread]⟩
    | error e =>
      left
      rw [response, hread]
      split <;> rfl

end Delivery

end QueryPicker
