import Mathlib
import QueryPicker.Proofs.Deliveries

/-!
# Cached schemas

What the cache holds for an endpoint is decided by the last step that stored a schema for that
endpoint or cleared it: an introspection whose reply brings a schema, an insertion, or one of the
two ways of clearing. All other steps, failed introspections among them, leave the entry alone.
-/

namespace QueryPicker

/-- A reply that reports no errors and has a schema for its data. -/
inductive Delivery.Brings : Delivery → Schema → Prop where
  | mk {status body members data s} (hbody : Json.parse body = .ok (.object members))
      (herrors : ∀ items, Entries.get? members "errors" = some (.array items) →
        ∀ item ∈ items, item.isObject = false)
      (hdata : Entries.get? members "data" = some data) (hnull : data ≠ .null)
      (hschema : Introspection.decode data = .ok s) : Brings (.replied status body) s

namespace Introspection

theorem schemaIn?_eq_some_iff {r : Response} {s : Schema} : schemaIn? r = some s ↔
    r.hasErrors = false ∧ ∃ data, r.data? = some data ∧ decode data = .ok s := by
  rw [schemaIn?]
  cases r.hasErrors with
  | true => simp
  | false =>
    cases r.data? with
    | none => simp
    | some data => cases hdecode : decode data <;> simp [hdecode]

theorem schemaIn?_response_iff {d : Delivery} {s : Schema} :
    schemaIn? d.response = some s ↔ d.Brings s := by
  rw [schemaIn?_eq_some_iff]
  constructor
  · rintro ⟨hsuccess, data, hdata, hschema⟩
    obtain herrors | ⟨status, body, rfl, hread⟩ := d.read_or_hasErrors
    · rw [hsuccess] at herrors
      cases herrors
    · obtain ⟨members, hbody, hr⟩ := Response.read_eq_ok_iff.mp hread
      obtain ⟨hget, hnull⟩ := (Response.data?_eq_some_iff hr).mp hdata
      exact .mk hbody ((Response.hasErrors_eq_false_iff hr).mp hsuccess) hget hnull hschema
  · rintro ⟨hbody, herrors, hdata, hnull, hschema⟩
    obtain ⟨r, hr, -, -⟩ := Response.ofJson?_object _
    rw [Delivery.response_of_read (Response.read_eq_ok_iff.mpr ⟨_, hbody, hr⟩)]
    exact ⟨(Response.hasErrors_eq_false_iff hr).mpr herrors, _,
      (Response.data?_eq_some_iff hr).mpr ⟨hdata, hnull⟩, hschema⟩

end Introspection

namespace Client

/-- An introspection either finds no schema and leaves the cache, or caches the one it finds. -/
theorem introspect_cases (client : Client) (c : SchemaCache) (endpoint : String)
    (headers : Headers) :
    ((∀ s, ¬ (client.deliver endpoint Introspection.request headers).Brings s) ∧
      client.introspect c endpoint headers = (c, none)) ∨
    ∃ s, (client.deliver endpoint Introspection.request headers).Brings s ∧
      client.introspect c endpoint headers = ((c.insert endpoint s).1, some s) := by
  rw [introspect, Introspection.receive]
  generalize client.deliver endpoint Introspection.request headers = d
  simp only [← Introspection.schemaIn?_response_iff]
  cases Introspection.schemaIn? d.response with
  | none => exact .inl ⟨nofun, rfl⟩
  | some s => exact .inr ⟨s, rfl, rfl⟩

end Client

namespace SchemaCache

theorem get?_insert (c : SchemaCache) (endpoint other : String) (s : Schema) :
    (c.insert endpoint s).1.get? other = if endpoint = other then some s else c.get? other :=
  Entries.get?_put c.entries endpoint other s

theorem get?_clear (c : SchemaCache) (endpoint other : String) :
    (c.clear endpoint).1.get? other = if endpoint = other then none else c.get? other :=
  Entries.get?_filter_ne c.entries endpoint other

/-- The step stores a schema for the endpoint. -/
inductive Step.Stores (endpoint : String) (s : Schema) : Step → Prop where
  | introspect {client headers}
      (h : (client.deliver endpoint Introspection.request headers).Brings s) :
    Stores endpoint s (.introspect client endpoint headers)
  | insert : Stores endpoint s (.insert endpoint s)

inductive Step.Clears (endpoint : String) : Step → Prop where
  | clear : Clears endpoint (.clear endpoint)
  | clearAll : Clears endpoint .clearAll

/-- The step decides what is held for the endpoint. -/
def Step.Settles (endpoint : String) (step : Step) : Prop :=
  step.Clears endpoint ∨ ∃ s, step.Stores endpoint s

theorem get?_perform_of_stores {step : Step} {endpoint : String} {s : Schema}
    (h : step.Stores endpoint s) (c : SchemaCache) : (c.perform step).get? endpoint = some s := by
  cases h with
  | insert => rw [perform, get?_insert, if_pos rfl]
  | @introspect client headers hbrings =>
    rw [← Introspection.schemaIn?_response_iff] at hbrings
    rw [perform, Client.introspect, Introspection.receive, hbrings]
    exact (get?_insert c endpoint endpoint s).trans (if_pos rfl)

theorem get?_perform_of_clears {step : Step} {endpoint : String} (h : step.Clears endpoint)
    (c : SchemaCache) : (c.perform step).get? endpoint = none := by
  cases h with
  | clear => rw [perform, get?_clear, if_pos rfl]
  | clearAll => rfl

theorem get?_perform_of_not_settles {step : Step} {endpoint : String}
    (h : ¬ step.Settles endpoint) (c : SchemaCache) :
    (c.perform step).get? endpoint = c.get? endpoint := by
  cases step with
  | introspect client other headers =>
    obtain ⟨-, heq⟩ | ⟨s, hbrings, heq⟩ := client.introspect_cases c other headers
    · rw [perform, heq]
    · have hne : other ≠ endpoint := by
        rintro rfl
        exact h (.inr ⟨s, .introspect hbrings⟩)
      rw [perform, heq, get?_insert, if_neg hne]
  | insert other s =>
    have hne : other ≠ endpoint := by
      rintro rfl
      exact h (.inr ⟨s, .insert⟩)
    rw [perform, get?_insert, if_neg hne]
  | clear other =>
    have hne : other ≠ endpoint := by
      rintro rfl
      exact h (.inl .clear)
    rw [perform, get?_clear, if_neg hne]
  | clearAll => exact absurd (.inl .clearAll) h

theorem get?_perform_iff {c : SchemaCache} {step : Step} {endpoint : String} {s : Schema} :
    (c.perform step).get? endpoint = some s ↔
      step.Stores endpoint s ∨ (¬ step.Settles endpoint ∧ c.get? endpoint = some s) := by
  constructor
  · intro hget
    by_cases hsettles : step.Settles endpoint
    · obtain hclears | ⟨s', hstores⟩ := hsettles
      · rw [get?_perform_of_clears hclears] at hget
        cases hget
      · rw [get?_perform_of_stores hstores] at hget
        exact .inl (Option.some.inj hget ▸ hstores)
    · rw [get?_perform_of_not_settles hsettles] at hget
      exact .inr ⟨hsettles, hget⟩
  · rintro (hstores | ⟨hsettles, hget⟩)
    · exact get?_perform_of_stores hstores c
    · rw [get?_perform_of_not_settles hsettles, hget]

/-- The last step that settles what is held for the endpoint stores this schema. -/
def LastStored (steps : List Step) (endpoint : String) (s : Schema) : Prop :=
  ∃ before step after, steps = before ++ step :: after ∧ step.Stores endpoint s ∧
    ∀ later ∈ after, ¬ later.Settles endpoint

theorem lastStored_concat {steps : List Step} {step : Step} {endpoint : String} {s : Schema} :
    LastStored (steps ++ [step]) endpoint s ↔
      step.Stores endpoint s ∨ (¬ step.Settles endpoint ∧ LastStored steps endpoint s) := by
  constructor
  · rintro ⟨before, storing, after, heq, hstores, hlater⟩
    obtain rfl | ⟨after, last, rfl⟩ := List.eq_nil_or_concat after
    · obtain ⟨-, hlast⟩ := List.append_inj' heq rfl
      exact .inl (List.head_eq_of_cons_eq hlast ▸ hstores)
    · rw [List.concat_eq_append, ← List.cons_append, ← List.append_assoc] at heq
      obtain ⟨hsteps, hlast⟩ := List.append_inj' heq rfl
      obtain rfl := List.head_eq_of_cons_eq hlast
      simp only [List.concat_eq_append, List.mem_append, List.mem_singleton] at hlater
      exact .inr ⟨hlater _ (.inr rfl), before, storing, after, hsteps, hstores, fun later h =>
        hlater later (.inl h)⟩
  · rintro (hstores | ⟨hsettles, before, storing, after, rfl, hstores, hlater⟩)
    · exact ⟨steps, step, [], rfl, hstores, nofun⟩
    · refine ⟨before, storing, after ++ [step], by simp, hstores, ?_⟩
      intro later hmem
      rcases List.mem_append.mp hmem with hmem | hmem
      · exact hlater later hmem
      · exact List.mem_singleton.mp hmem ▸ hsettles

theorem get?_run_empty_iff {steps : List Step} {endpoint : String} {s : Schema} :
    (run .empty steps).get? endpoint = some s ↔ LastStored steps endpoint s := by
  induction steps using List.reverseRecOn with
  | nil =>
    refine iff_of_false nofun ?_
    rintro ⟨before, step, after, heq, -⟩
    exact List.append_ne_nil_of_right_ne_nil before (List.cons_ne_nil step after) heq.symm
  | append_singleton steps step ih =>
    have hrun : run .empty (steps ++ [step]) = (run .empty steps).perform step :=
      List.foldl_concat ..
    rw [hrun, get?_perform_iff, lastStored_concat, ih]

/-- After any run the cache holds for every endpoint the schema that was stored last, if nothing was
cleared since. An introspection that finds no schema leaves the cache as it is; one that finds a
schema caches it, and leaves all other endpoints as they are. -/
theorem run_holds_last_stored (steps : List Step) :
    (∀ endpoint s, (run .empty steps).get? endpoint = some s ↔ LastStored steps endpoint s) ∧
      ∀ (client : Client) endpoint headers,
        match client.introspect (run .empty steps) endpoint headers with
        | (c, none) => c = run .empty steps ∧
            ∀ s, ¬ (client.deliver endpoint Introspection.request headers).Brings s
        | (c, some s) => (client.deliver endpoint Introspection.request headers).Brings s ∧
            c.get? endpoint = some s ∧
              ∀ other, other ≠ endpoint → c.get? other = (run .empty steps).get? other := by
  refine ⟨fun _ _ => get?_run_empty_iff, ?_⟩
  intro client endpoint headers
  obtain ⟨hnothing, heq⟩ | ⟨s, hbrings, heq⟩ :=
    client.introspect_cases (run .empty steps) endpoint headers
  · rw [heq]
    exact ⟨rfl, hnothing⟩
  · rw [heq]
    refine ⟨hbrings, (get?_insert ..).trans (if_pos rfl), ?_⟩
    intro other hother
    exact (get?_insert ..).trans (if_neg hother.symm)

end SchemaCache

end QueryPicker
