import Mathlib
import QueryPicker.Proofs.RecordedExchanges

/-!
# Written responses

A response is written with the members that it has, and read part by part. Whatever a body was read
as is read again from its own text, and so is every other response that text can hold, unless its
data is a null that is written out: that is read as no data.
-/

namespace QueryPicker.Response

variable {r : Response}

/-- Every part is read back from its member; null data is lost. -/
theorem ofJson?_toJson (r : Response) :
    ofJson? r.toJson = some { r with data? := r.data?.bind notNull? } := by
  obtain ⟨data?, errors?, extensions?⟩ := r
  cases data? <;> cases errors? <;> cases extensions? <;>
    simp [ofJson?, toJson, errorsJson, Json.members?, Json.get?, Json.memberIf, Json.array?,
      Entries.get?, ResponseError.ofJson?_toJson]

theorem fits_toJson {depth : Nat} (hdata : ∀ data ∈ r.data?, Json.Fits (depth + 4) data)
    (herrors : ∀ e ∈ r.errors, e.Fits (depth + 2))
    (hextensions : ∀ extensions ∈ r.extensions?, Json.Fits (depth + 4) (.object extensions)) :
    Json.Fits (depth + 5) r.toJson := by
  have hnames : ["data", "errors", "extensions"].Nodup := by decide
  refine .object (hnames.sublist ?_) fun m hm => ?_
  · rw [List.map_append, List.map_append]
    exact (Json.map_fst_memberIf_sublist.append Json.map_fst_memberIf_sublist).append
      Json.map_fst_memberIf_sublist
  · simp only [List.mem_append, Json.mem_memberIf] at hm
    rcases hm with (⟨data, hmem, rfl⟩ | ⟨es, hes, rfl⟩) | ⟨extensions, hmem, rfl⟩
    · exact hdata data hmem
    · refine .array fun item hitem => ?_
      obtain ⟨e, he, rfl⟩ := List.mem_map.mp hitem
      exact ResponseError.fits_toJson (herrors e (mem_errors.mpr ⟨es, hes, he⟩))
    · exact hextensions extensions hmem

/-- What is read of a text that holds the response. -/
theorem read_text_of_parse (h : Json.parse r.text = .ok r.toJson) :
    read r.text = .ok { r with data? := r.data?.bind notNull? } := by
  rw [read, h]
  dsimp only
  rw [ofJson?_toJson]

theorem bind_notNull?_eq_self_iff {data? : Option Json} :
    data?.bind notNull? = data? ↔ data? ≠ some .null := by
  cases data? with
  | none => simp
  | some data => cases data <;> simp [notNull?]

theorem data?_ne_null_of_read {body : String} (h : read body = .ok r) : r.data? ≠ some .null := by
  obtain ⟨members, -, hr⟩ := read_eq_ok_iff.mp h
  exact fun hdata => ((data?_eq_some_iff hr).mp hdata).2 rfl

/-- The text of what was read holds it, if it holds its numbers. -/
theorem parse_text_of_read {body : String} (h : read body = .ok r)
    (hfloats : ∀ x, r.toJson.HasFloat x → x.ReadsBack) : Json.parse r.text = .ok r.toJson := by
  obtain ⟨members, hparse, hr⟩ := read_eq_ok_iff.mp h
  have hbody : Json.Fits Json.Reader.depthLimit (.object members) := Json.fits_of_parse hparse
  obtain ⟨hdata, herrors, hextensions⟩ := fits_parts hbody hr
  exact Json.parse_compact (fits_toJson hdata herrors hextensions) hfloats

/-- Reading is a normal form. A body that is an object is read as a response, which is read again
from its text. A response that its text holds is read from it exactly if its data is no null that is
written out. -/
theorem read_text :
    (∀ body members, Json.parse body = .ok (.object members) → ∃ r, read body = .ok r ∧
      ((∀ x, r.toJson.HasFloat x → x.ReadsBack) → read r.text = .ok r)) ∧
    ∀ r : Response, Json.parse r.text = .ok r.toJson →
      (read r.text = .ok r ↔ r.data? ≠ some .null) := by
  have hself : ∀ r : Response, Json.parse r.text = .ok r.toJson →
      (read r.text = .ok r ↔ r.data? ≠ some .null) := by
    intro r h
    rw [read_text_of_parse h, ← bind_notNull?_eq_self_iff, Except.ok.injEq]
    exact ⟨fun heq => congrArg data? heq, fun heq => by rw [heq]⟩
  refine ⟨fun body members hbody => ?_, hself⟩
  obtain ⟨r, hr, -⟩ := ofJson?_object members
  have hread : read body = .ok r := read_eq_ok_iff.mpr ⟨members, hbody, hr⟩
  refine ⟨r, hread, fun hfloats => ?_⟩
  exact (hself r (parse_text_of_read hread hfloats)).mpr (data?_ne_null_of_read hread)

/-- Lists that are there but empty, a null in an extension, and the last line that there is. -/
def locatedResponse : Response where
  data? := none
  errors? := some [⟨"late", some [⟨4294967295, 0⟩], some [], some [("code", .null)]⟩,
    ⟨"", some [], none, some []⟩]
  extensions? := some []

theorem parse_text_locatedResponse :
    Json.parse locatedResponse.text = .ok locatedResponse.toJson := by
  have hnull : ∀ x, ¬ Json.null.HasFloat x := by rintro x ⟨⟩
  have hfloats : ∀ x, ¬ locatedResponse.toJson.HasFloat x := by
    simp [locatedResponse, toJson, errorsJson, ResponseError.toJson, ErrorLocation.toJson,
      Json.memberIf, Json.ofNat, hnull]
  have hempty : ∀ depth, Json.Fits (depth + 1) (.object []) := fun _ => .object (by simp) (by simp)
  refine Json.parse_compact (fits_toJson ?_ (fun e he => ?_) ?_) fun x hx => absurd hx (hfloats x)
  · rintro data ⟨⟩
  · rcases List.mem_pair.mp he with rfl | rfl <;> constructor
    · rintro items ⟨⟩
      exact .array (by simp)
    · rintro members ⟨⟩
      exact .object (by simp) (by simpa using .null)
    · rintro items ⟨⟩
    · rintro members ⟨⟩
      exact hempty _
  · rintro extensions ⟨⟩
    exact hempty _

theorem read_text_scored :
    scoredResponse.toJson.HasFloat Binary64.half ∧ Binary64.half.ReadsBack ∧
      read scoredReply = .ok scoredResponse ∧ read scoredResponse.text = .ok scoredResponse ∧
      Json.parse locatedResponse.text = .ok locatedResponse.toJson ∧
      locatedResponse.data? ≠ some .null ∧ read locatedResponse.text = .ok locatedResponse := by
  have hfloat : ∀ x, scoredResponse.toJson.HasFloat x ↔ Binary64.half = x := by
    simp [scoredResponse, toJson, errorsJson, ResponseError.toJson, Json.memberIf, Json.ofNat]
  obtain ⟨members, hbody, -⟩ := read_eq_ok_iff.mp read_scoredReply
  obtain ⟨r, hread, hagain⟩ := read_text.1 scoredReply members hbody
  obtain rfl : scoredResponse = r := Except.ok.inj (read_scoredReply.symm.trans hread)
  have hnull : locatedResponse.data? ≠ some .null := (Option.some_ne_none _).symm
  exact ⟨(hfloat _).mpr rfl, Binary64.readsBack_half, hread,
    hagain fun x hx => (hfloat x).mp hx ▸ Binary64.readsBack_half, parse_text_locatedResponse,
    hnull, (read_text.2 locatedResponse parse_text_locatedResponse).mpr hnull⟩

end QueryPicker.Response
