import Mathlib
import QueryPicker.Proofs.Deliveries

/-!
# Reported errors

A reply lists the errors that it reports. Only objects in that list count: a reply is taken as a
failure by those who receive it if one of the errors is an object. If none is, the list is as good
as empty.
-/

namespace QueryPicker

theorem Json.isBlankText_compact_array (items : List Json) :
    Text.isBlankText (Json.array items).compact = false := by
  have hbracket : Text.isBlank '[' = false := rfl
  simp [Text.isBlankText, Json.compact, hbracket]

/-- An entry keeps whether the response that it was made of was successful. -/
theorem HistoryEntry.wasSuccessful_ofExchange (endpoint : String) (request : Request)
    (r : Response) (elapsedMs : Nat) :
    (ofExchange endpoint request r elapsedMs).wasSuccessful = r.isSuccessful := by
  rw [wasSuccessful, ofExchange, Response.isSuccessful]
  cases r.hasErrors with
  | false => rfl
  | true =>
    rw [if_pos rfl, Option.all_some, Response.errorsJson, Json.isBlankText_compact_array]
    rfl

theorem History.head?_entries_record (h : History) (hcapacity : 0 < h.capacity) (endpoint : String)
    (request : Request) (d : Delivery) (elapsedMs : Nat) :
    (h.record endpoint request d elapsedMs).1.entries.head? =
      some { HistoryEntry.ofExchange endpoint request d.response elapsedMs with id := h.next } := by
  obtain ⟨room, hroom⟩ := Nat.exists_eq_succ_of_ne_zero hcapacity.ne'
  rw [record, add, hroom, List.take_succ_cons, List.head?_cons]

/-- Whoever receives the body takes it as a failure. -/
structure TakenAsFailure (body : String) : Prop where
  read : ∃ r, Response.read body = .ok r ∧ r.hasErrors = true ∧ r.isSuccessful = false
  recorded : ∀ (client : Client) (h : History) endpoint request headers elapsedMs status,
    0 < h.capacity → client.deliver endpoint request headers = .replied status body →
      ∃ entry ∈ (client.executeRecorded h endpoint request headers elapsedMs).1.entries.head?,
        entry.id = h.next ∧ entry.wasSuccessful = false
  introspected : ∀ (client : Client) (c : SchemaCache) endpoint headers status,
    client.deliver endpoint Introspection.request headers = .replied status body →
      client.introspect c endpoint headers = (c, none)

theorem Introspection.receive_of_hasErrors (c : SchemaCache) (endpoint : String) {d : Delivery}
    (h : d.response.hasErrors = true) : receive c endpoint d = (c, none) := by
  rw [receive, schemaIn?, if_pos h]

theorem TakenAsFailure.of_hasErrors {body : String} {r : Response}
    (hread : Response.read body = .ok r) (h : r.hasErrors = true) : TakenAsFailure body := by
  have hresponse : ∀ status, (Delivery.replied status body).response = r := fun _ =>
    Delivery.response_of_read hread
  have hfailed : r.isSuccessful = false := by rw [Response.isSuccessful, h, Bool.not_true]
  refine ⟨⟨r, hread, h, hfailed⟩, ?_, ?_⟩
  · intro client history endpoint request headers elapsedMs status hcapacity hdeliver
    refine ⟨{ HistoryEntry.ofExchange endpoint request r elapsedMs with id := history.next }, ?_,
      rfl, (HistoryEntry.wasSuccessful_ofExchange endpoint request r elapsedMs).trans hfailed⟩
    rw [Client.executeRecorded, hdeliver, History.head?_entries_record _ hcapacity, hresponse]
    rfl
  · intro client c endpoint headers status hdeliver
    rw [Client.introspect, hdeliver]
    exact Introspection.receive_of_hasErrors c endpoint (hresponse status ▸ h)

/-- A reply that lists errors is taken as a failure exactly if one of them is an object. -/
theorem takenAsFailure_iff {body : String} {members : Json.Members} {items : List Json}
    (hbody : Json.parse body = .ok (.object members))
    (hitems : Entries.get? members "errors" = some (.array items)) :
    TakenAsFailure body ↔ ∃ item ∈ items, item.isObject = true := by
  obtain ⟨r, hr, -, -⟩ := Response.ofJson?_object members
  have hread : Response.read body = .ok r := Response.read_eq_ok_iff.mpr ⟨members, hbody, hr⟩
  have herrors : r.hasErrors = true ↔ ∃ item ∈ items, item.isObject = true := by
    rw [Response.hasErrors_iff hr, hitems]
    simp
  rw [← herrors]
  constructor
  · rintro ⟨⟨r', hread', herrors', -⟩, -, -⟩
    obtain rfl := Except.ok.inj (hread'.symm.trans hread)
    exact herrors'
  · exact TakenAsFailure.of_hasErrors hread

/-- A text and an object without any members. -/
def mixedErrors : String := "\x7b\"errors\":[\"boom\",\x7b\x7d]\x7d"

theorem takenAsFailure_mixedErrors :
    Json.parse mixedErrors =
        .ok (.object [("errors", .array [.string "boom", .object []])]) ∧
      TakenAsFailure mixedErrors := by
  have hbody : Json.parse mixedErrors =
      .ok (.object [("errors", .array [.string "boom", .object []])]) := by
    cbv
  exact ⟨hbody, (takenAsFailure_iff hbody rfl).mpr ⟨.object [], by simp, rfl⟩⟩

/-- A text as the only error, beside a schema. -/
def textError : String :=
  "\x7b\"errors\":[\"boom\"],\"data\":\x7b\"__schema\":\x7b\"queryType\":" ++
    "\x7b\"name\":\"Query\"\x7d\x7d\x7d\x7d"

def textErrorMembers : Json.Members :=
  [("errors", .array [.string "boom"]),
    ("data", .object [("__schema", .object [("queryType", .object [("name", .string "Query")])])])]

/-- The schema beside the error is taken over, as if nothing had been reported. -/
theorem not_takenAsFailure_textError :
    Json.parse textError = .ok (.object textErrorMembers) ∧ ¬ TakenAsFailure textError ∧
      ∀ c endpoint, (Introspection.receive c endpoint (.replied 200 textError)).2 =
        some (Schema.ofTypes [] "Query" none none) := by
  have hbody : Json.parse textError = .ok (.object textErrorMembers) := by cbv
  obtain ⟨r, hr, -⟩ := Response.ofJson?_object textErrorMembers
  have hread : Response.read textError = .ok r := Response.read_eq_ok_iff.mpr ⟨_, hbody, hr⟩
  obtain rfl := Option.some.inj hr
  refine ⟨hbody, ?_, ?_⟩
  · rintro ⟨⟨r', hread', herrors, -⟩, -, -⟩
    obtain rfl := Except.ok.inj (hread'.symm.trans hread)
    cases herrors
  · intro c endpoint
    rw [Introspection.receive, Delivery.response_of_read hread]
    rfl

end QueryPicker
