import Mathlib
import QueryPicker.Proofs.JsonRoundTrip
import QueryPicker.Proofs.ReportedErrors
import QueryPicker.Proofs.RetainedEntries

/-!
# Recorded exchanges

A call answers the same whether or not it is recorded. What the history keeps of the answer agrees
with it: whether it was a success, the data, and the errors, both of which are kept as JSON text.
-/

namespace QueryPicker

namespace ErrorLocation

theorem coordinate?_ofNat (n : UInt32) : coordinate? (.ofNat n.toNat) = some n := by
  have hnat : (Json.ofNat n.toNat).nat? = some n.toNat := by simp [Json.ofNat, Json.nat?]
  rw [coordinate?, hnat, Option.bind_some, if_pos n.toNat_lt_size, UInt32.ofNat_toNat]

theorem ofJson?_toJson (l : ErrorLocation) : ofJson? l.toJson = some l := by
  have hline : l.toJson.get? "line" = some (.ofNat l.line.toNat) := rfl
  have hcolumn : l.toJson.get? "column" = some (.ofNat l.column.toNat) := rfl
  rw [ofJson?, hline, hcolumn, Option.bind_some, Option.bind_some, coordinate?_ofNat,
    coordinate?_ofNat]
  rfl

theorem fits_toJson (l : ErrorLocation) (depth : Nat) : Json.Fits (depth + 1) l.toJson := by
  have hcoordinate : ∀ n : UInt32, Json.Fits depth (.ofNat n.toNat) := fun n => by
    have hn := n.toNat_lt
    exact .integer (by omega) (by omega)
  refine .object ?_ ?_
  · show ["line", "column"].Nodup
    decide
  · simp [hcoordinate]

end ErrorLocation

namespace Json

variable {α : Type} {name : String} {write : α → Json} {a? : Option α}

theorem mem_memberIf {m : String × Json} :
    m ∈ memberIf name write a? ↔ ∃ a ∈ a?, m = (name, write a) := by
  cases a? <;> simp [memberIf]

theorem map_fst_memberIf_sublist : ((memberIf name write a?).map (·.1)).Sublist [name] := by
  cases a? <;> simp [memberIf]

theorem Fits.get? {v part : Json} {name : String} {depth : Nat} (h : Fits (depth + 1) v)
    (hget : v.get? name = some part) : Fits depth part := by
  cases h with
  | @object _ members _ hfits =>
    obtain ⟨m, hfind, rfl⟩ := Option.map_eq_some_iff.mp hget
    exact hfits m (List.mem_of_find?_eq_some hfind)
  | _ => cases hget

theorem array?_eq_some_iff {v : Json} {items : List Json} :
    v.array? = some items ↔ v = .array items := by
  cases v <;> simp [array?]

theorem members?_eq_some_iff {v : Json} {members : Members} :
    v.members? = some members ↔ v = .object members := by
  cases v <;> simp [members?]

end Json

namespace ResponseError

/-- A text can hold the path and the extensions. -/
structure Fits (depth : Nat) (e : ResponseError) : Prop where
  path : ∀ items ∈ e.path?, Json.Fits depth (.array items)
  extensions : ∀ members ∈ e.extensions?, Json.Fits depth (.object members)

theorem ofJson?_toJson (e : ResponseError) : ofJson? e.toJson = some e := by
  have hlocations : ∀ ls : List ErrorLocation,
      (ls.map ErrorLocation.toJson).filterMap ErrorLocation.ofJson? = ls := fun ls => by
    rw [List.filterMap_map]
    exact (List.filterMap_congr fun l _ => l.ofJson?_toJson).trans List.filterMap_some
  obtain ⟨message, locations?, path?, extensions?⟩ := e
  cases locations? <;> cases path? <;> cases extensions? <;>
    simp [ofJson?, toJson, Json.members?, Json.get?, Json.memberIf, Json.string?, Json.array?,
      Entries.get?, hlocations]

theorem fits_toJson {e : ResponseError} {depth : Nat} (h : e.Fits (depth + 2)) :
    Json.Fits (depth + 3) e.toJson := by
  have hnames : ["message", "locations", "path", "extensions"].Nodup := by decide
  refine .object (hnames.sublist ?_) fun m hm => ?_
  · rw [List.map_append, List.map_append, List.map_cons]
    exact (((Json.map_fst_memberIf_sublist.cons_cons "message").append
      Json.map_fst_memberIf_sublist).append Json.map_fst_memberIf_sublist)
  · simp only [List.mem_append, List.mem_cons, Json.mem_memberIf] at hm
    rcases hm with ((rfl | ⟨ls, -, rfl⟩) | ⟨items, hitems, rfl⟩) | ⟨members, hmembers, rfl⟩
    · exact .string _
    · refine .array fun location hlocation => ?_
      obtain ⟨l, -, rfl⟩ := List.mem_map.mp hlocation
      exact l.fits_toJson depth
    · exact h.path items hitems
    · exact h.extensions members hmembers

theorem fits_withExtension {value : Json} {depth : Nat} (h : Json.Fits depth value)
    (message name : String) : (withExtension message name value).Fits (depth + 1) where
  path := by simp [withExtension]
  extensions := by
    rintro members ⟨⟩
    exact .object (List.nodup_singleton name) (by simpa using h)

theorem Fits.mono {e : ResponseError} {depth depth' : Nat} (h : e.Fits depth)
    (hle : depth ≤ depth') : e.Fits depth' where
  path items hitems := (h.path items hitems).mono hle
  extensions members hmembers := (h.extensions members hmembers).mono hle

theorem fits_ofJson? {value : Json} {e : ResponseError} {depth : Nat}
    (hvalue : Json.Fits (depth + 1) value) (he : ofJson? value = some e) : e.Fits depth := by
  obtain ⟨members, -, rfl⟩ := Option.map_eq_some_iff.mp he
  refine ⟨fun items hitems => ?_, fun extensions hextensions => ?_⟩
  · obtain ⟨part, hget, hpart⟩ := Option.bind_eq_some_iff.mp hitems
    exact Json.array?_eq_some_iff.mp hpart ▸ hvalue.get? hget
  · obtain ⟨part, hget, hpart⟩ := Option.bind_eq_some_iff.mp hextensions
    exact Json.members?_eq_some_iff.mp hpart ▸ hvalue.get? hget

end ResponseError

namespace Response

/-- A text can hold the data, and another one the list of errors. -/
structure Fits (r : Response) : Prop where
  data : ∀ data ∈ r.data?, Json.Fits Json.Reader.depthLimit data
  errors : ∀ e ∈ r.errors, e.Fits (depthBelow 2)

theorem mem_errors {r : Response} {e : ResponseError} :
    e ∈ r.errors ↔ ∃ es, r.errors? = some es ∧ e ∈ es := by
  rw [errors]
  cases r.errors? <;> simp

theorem fits_ofError {e : ResponseError} (h : e.Fits (depthBelow 2)) : (ofError e).Fits where
  data := by simp [ofError]
  errors := by simpa [ofError, errors] using h

/-- The parts of a body nest less deep than the body. -/
theorem fits_parts {members : Json.Members} {r : Response} {depth : Nat}
    (hbody : Json.Fits (depth + 3) (.object members)) (h : ofJson? (.object members) = some r) :
    (∀ data ∈ r.data?, Json.Fits (depth + 2) data) ∧ (∀ e ∈ r.errors, e.Fits depth) ∧
      ∀ extensions ∈ r.extensions?, Json.Fits (depth + 2) (.object extensions) := by
  obtain rfl := Option.some.inj h
  refine ⟨fun data hdata => ?_, fun e he => ?_, fun extensions hextensions => ?_⟩
  · exact hbody.get? ((data?_eq_some_iff rfl).mp hdata).1
  · obtain ⟨es, hes, he⟩ := mem_errors.mp he
    obtain ⟨items, hitems, rfl⟩ := Option.map_eq_some_iff.mp hes
    obtain ⟨part, hget, hlist⟩ := Option.bind_eq_some_iff.mp hitems
    obtain ⟨item, hitem, he⟩ := List.mem_filterMap.mp he
    obtain rfl := Json.array?_eq_some_iff.mp hlist
    exact ResponseError.fits_ofJson? (Json.fits_array.mp (hbody.get? hget) item hitem) he
  · obtain ⟨part, hget, hpart⟩ := Option.bind_eq_some_iff.mp hextensions
    exact Json.members?_eq_some_iff.mp hpart ▸ hbody.get? hget

theorem fits_of_read {body : String} {r : Response} (h : read body = .ok r) : r.Fits := by
  obtain ⟨members, hparse, hr⟩ := read_eq_ok_iff.mp h
  have hbody : Json.Fits Json.Reader.depthLimit (.object members) := Json.fits_of_parse hparse
  obtain ⟨hdata, herrors, -⟩ := fits_parts hbody hr
  exact ⟨fun data hmem => (hdata data hmem).mono (Nat.le_succ _),
    fun e he => (herrors e he).mono (Nat.le_succ _)⟩

theorem Fits.errorsJson {r : Response} (h : r.Fits) :
    Json.Fits Json.Reader.depthLimit (errorsJson r.errors) := by
  refine .array fun item hitem => ?_
  obtain ⟨e, he, rfl⟩ := List.mem_map.mp hitem
  exact ResponseError.fits_toJson (h.errors e he)

end Response

/-- Statuses have 16 bits. -/
theorem Delivery.fits_response {d : Delivery}
    (hstatus : ∀ status body, d = .replied status body → status < 2 ^ 16) : d.response.Fits := by
  cases d with
  | failed message =>
    exact Response.fits_ofError ⟨nofun, nofun⟩
  | replied status body =>
    have hlt := hstatus status body rfl
    rw [response]
    split
    · refine Response.fits_ofError (ResponseError.fits_withExtension ?_ _ _)
      exact .integer (by omega) (by omega)
    · split
      · rename_i hread
        exact Response.fits_of_read hread
      · exact Response.fits_ofError (ResponseError.fits_withExtension (.string _) _ _)

/-- A number in the data or in the errors. -/
inductive Response.HasFloat (x : Binary64) (r : Response) : Prop where
  | data {data} : data ∈ r.data? → data.HasFloat x → HasFloat x r
  | errors : (errorsJson r.errors).HasFloat x → HasFloat x r

/-- What is kept of an exchange says the same as the response. -/
structure HistoryEntry.AgreesWith (entry : HistoryEntry) (r : Response) : Prop where
  success : entry.wasSuccessful = r.isSuccessful
  /-- Data are there if the response has any, and are read back. -/
  data : entry.responseData?.map Json.parse = r.data?.map .ok
  hasErrors : entry.responseErrors?.isSome = r.hasErrors
  errors : ∀ text ∈ entry.responseErrors?, ∃ items, Json.parse text = .ok (.array items) ∧
    items.map ResponseError.ofJson? = r.errors.map some

theorem HistoryEntry.ofExchange_agreesWith {r : Response} (hfits : r.Fits)
    (hfloats : ∀ x, r.HasFloat x → x.ReadsBack) (endpoint : String) (request : Request)
    (elapsedMs : Nat) : (ofExchange endpoint request r elapsedMs).AgreesWith r where
  success := wasSuccessful_ofExchange endpoint request r elapsedMs
  data := by
    show (r.data?.map Json.compact).map Json.parse = r.data?.map .ok
    rw [Option.map_map]
    refine Option.map_congr fun data hdata => ?_
    exact Json.parse_compact (hfits.data data hdata) fun x hx => hfloats x (.data hdata hx)
  hasErrors := by
    rw [ofExchange]
    cases r.hasErrors <;> rfl
  errors := by
    intro text htext
    obtain ⟨-, htext⟩ := Option.ite_none_right_eq_some.mp htext
    obtain rfl := Option.some.inj htext
    refine ⟨r.errors.map ResponseError.toJson, ?_, ?_⟩
    · exact Json.parse_compact hfits.errorsJson fun x hx => hfloats x (.errors hx)
    · rw [List.map_map]
      exact List.map_congr_left fun e _ => e.ofJson?_toJson

/-- A call that is recorded gives the response that it gives otherwise. The history takes up one
entry under a number that was not given before, for which at most the oldest entry gives way, and
that entry agrees with the response. -/
theorem Client.executeRecorded_agrees (client : Client) (capacity : Nat)
    (steps : List History.Step) (endpoint : String) (r : Request) (headers : Headers)
    (elapsedMs : Nat)
    (hstatus : ∀ status body, client.deliver endpoint r headers = .replied status body →
      status < 2 ^ 16)
    (hfloats : ∀ x, (client.execute endpoint r headers).HasFloat x → x.ReadsBack) :
    let h := (History.empty capacity).run steps
    let recorded := client.executeRecorded h endpoint r headers elapsedMs
    recorded.2 = client.execute endpoint r headers ∧ ∃ entry,
      recorded.1.entries = entry ::
          (if h.entries.length = max capacity 1 then h.entries.dropLast else h.entries) ∧
        entry.id ∉ (History.empty capacity).numbers steps ∧
        entry.AgreesWith (client.execute endpoint r headers) := by
  intro h recorded
  obtain ⟨hsound, hcapacity⟩ := (History.isSound_empty capacity).run steps
  have hcapacity : h.capacity = max capacity 1 := hcapacity
  have hagrees := HistoryEntry.ofExchange_agreesWith (Delivery.fits_response hstatus) hfloats
    endpoint r elapsedMs
  refine ⟨rfl, _, hcapacity ▸ hsound.entries_add _, History.next_run_notMem_numbers _ steps, ?_⟩
  exact ⟨hagrees.success, hagrees.data, hagrees.hasErrors, hagrees.errors⟩

def Binary64.half : Binary64 := ⟨0x3FE0000000000000⟩

theorem Binary64.readsBack_half : half.ReadsBack := by
  have hwrite : (JsonNumber.float half).write.toList = ['0', '.', '5'] := by decide +kernel
  have hread : Json.Reader.number false ['0', '.', '5'] = .ok (.float half, []) := by
    decide +kernel
  rw [Binary64.ReadsBack, hwrite, Json.Reader.value_of_digit rfl rfl, hread]
  rfl

def scoredReply : String :=
  "\x7b\"data\":\x7b\"score\":0.5\x7d,\"errors\":" ++
    "[\x7b\"message\":\"late\",\"path\":[\"ranks\",1]\x7d]\x7d"

def scoredValue : Json :=
  .object [("data", .object [("score", .number (.float Binary64.half))]),
    ("errors", .array [.object [("message", .string "late"),
      ("path", .array [.string "ranks", .ofNat 1])]])]

def scoredResponse : Response where
  data? := some (.object [("score", .number (.float Binary64.half))])
  errors? := some [⟨"late", none, some [.string "ranks", .ofNat 1], none⟩]
  extensions? := none

theorem read_scoredReply : Response.read scoredReply = .ok scoredResponse := by
  have hcompact : scoredValue.compact = scoredReply := by decide +kernel
  have hfits : Json.Fits 4 scoredValue := by
    have hone : Json.Fits 0 (.ofNat 1) := .integer (by decide) (by decide)
    simp [scoredValue, Json.Fits.float, Json.Fits.string, hone]
  have hparse : Json.parse scoredValue.compact = .ok scoredValue := by
    refine Json.parse_compact (hfits.mono (by decide)) fun x hx => ?_
    obtain rfl : Binary64.half = x := by simpa [scoredValue, Json.ofNat] using hx
    exact Binary64.readsBack_half
  rw [Response.read, ← hcompact, hparse]
  rfl

def scoring : Client := ⟨⟨[], ClientSettings.defaultTimeoutMs⟩, fun _ => .replied 200 scoredReply⟩

def scoreRequest : Request := ⟨"\x7bscore\x7d", none, none⟩

/-- An earlier entry takes up the only place of the history, and gives way. -/
theorem executeRecorded_agrees_scored :
    let steps := [.add (.ofExchange "/graphql" scoreRequest scoredResponse 12)]
    let recorded :=
      scoring.executeRecorded ((History.empty 0).run steps) "/graphql" scoreRequest [] 15
    scoredResponse.HasFloat Binary64.half ∧ Binary64.half.ReadsBack ∧ recorded.2 = scoredResponse ∧
      ∃ entry, recorded.1.entries = [entry] ∧ entry.id ∉ (History.empty 0).numbers steps ∧
        entry.AgreesWith scoredResponse := by
  have hresponse : scoring.execute "/graphql" scoreRequest [] = scoredResponse :=
    Delivery.response_of_read read_scoredReply
  have hstatus : ∀ status body, Delivery.replied 200 scoredReply = .replied status body →
      status < 2 ^ 16 := by
    rintro status body ⟨⟩
    decide
  have hfloat : ∀ x, scoredResponse.HasFloat x → Binary64.half = x := by
    rintro x (⟨hdata, hx⟩ | hx)
    · obtain rfl := Option.some.inj hdata
      simpa using hx
    · simp [scoredResponse, Response.errors, Response.errorsJson, ResponseError.toJson,
        Json.memberIf, Json.ofNat] at hx
  have hagrees := Client.executeRecorded_agrees scoring 0
    [.add (.ofExchange "/graphql" scoreRequest scoredResponse 12)] "/graphql" scoreRequest [] 15
    hstatus
    fun x hx => hfloat x (hresponse ▸ hx) ▸ Binary64.readsBack_half
  rw [hresponse] at hagrees
  exact ⟨.data rfl (by simp), Binary64.readsBack_half, hagrees⟩

end QueryPicker
