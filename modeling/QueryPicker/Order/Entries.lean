/-!
# Named entries in order

Entries stand in the order in which their names were first put.
-/

namespace QueryPicker.Entries

variable {α : Type}

def get? (entries : List (String × α)) (name : String) : Option α :=
  (entries.find? (·.1 == name)).map (·.2)

/-- A name that is there already keeps its place and takes the new value. -/
def put (entries : List (String × α)) (name : String) (value : α) : List (String × α) :=
  if entries.any (·.1 == name) then
    entries.map fun e => if e.1 == name then (name, value) else e
  else entries ++ [(name, value)]

def putAll (entries more : List (String × α)) : List (String × α) :=
  more.foldl (fun entries e => put entries e.1 e.2) entries

/-- Of entries with one name the first place and the last value count. -/
def merge (entries : List (String × α)) : List (String × α) :=
  putAll [] entries

theorem map_fst_put (entries : List (String × α)) (name : String) (value : α) :
    (put entries name value).map (·.1) =
      if name ∈ entries.map (·.1) then entries.map (·.1) else entries.map (·.1) ++ [name] := by
  have hmem : entries.any (·.1 == name) = true ↔ name ∈ entries.map (·.1) := by
    simp [List.any_eq_true]
  unfold put
  by_cases h : entries.any (·.1 == name) = true
  · rw [if_pos h, if_pos (hmem.mp h), List.map_map]
    apply List.map_congr_left
    intro e _
    by_cases he : e.1 = name <;> simp [he]
  · rw [if_neg h, if_neg (mt hmem.mpr h)]
    simp

theorem get?_cons (entry : String × α) (entries : List (String × α)) (name : String) :
    get? (entry :: entries) name = if entry.1 = name then some entry.2 else get? entries name := by
  by_cases h : entry.1 = name <;> simp [get?, h]

theorem get?_of_mem {entries : List (String × α)} (hnames : (entries.map (·.1)).Nodup)
    {name : String} {value : α} (h : (name, value) ∈ entries) :
    get? entries name = some value := by
  induction entries with
  | nil => cases h
  | cons first entries ih =>
    obtain ⟨hfresh, hnames⟩ := List.nodup_cons.mp hnames
    rw [get?_cons]
    rcases List.mem_cons.mp h with rfl | h
    · exact if_pos rfl
    · have hne : first.1 ≠ name := fun heq => hfresh (List.mem_map.mpr ⟨_, h, heq.symm⟩)
      rw [if_neg hne]
      exact ih hnames h

theorem get?_eq_none_iff {entries : List (String × α)} {name : String} :
    get? entries name = none ↔ entries.any (·.1 == name) = false := by
  rw [get?, Option.map_eq_none_iff, List.find?_eq_none, List.any_eq_false]

theorem get?_concat (entries : List (String × α)) (name other : String) (value : α) :
    get? (entries ++ [(name, value)]) other =
      (get? entries other).or (if name = other then some value else none) := by
  induction entries with
  | nil => rw [List.nil_append, get?_cons]; rfl
  | cons entry entries ih =>
    rw [List.cons_append, get?_cons, get?_cons, ih]
    by_cases h : entry.1 = other <;> simp [h]

theorem get?_replace (entries : List (String × α)) (name other : String) (value : α) :
    get? (entries.map fun e => if e.1 == name then (name, value) else e) other =
      if name = other then (get? entries other).map fun _ => value else get? entries other := by
  induction entries with
  | nil => by_cases h : name = other <;> simp [get?]
  | cons entry entries ih =>
    rw [List.map_cons, get?_cons, get?_cons, ih]
    by_cases hentry : entry.1 = name
    · by_cases hother : name = other <;> simp [hentry, hother]
    · by_cases hother : name = other
      · simp [← hother, hentry]
      · simp [hentry, hother]

/-- A name that has been put stands for the new value; all other names stand for what they did. -/
theorem get?_put (entries : List (String × α)) (name other : String) (value : α) :
    get? (put entries name value) other =
      if name = other then some value else get? entries other := by
  unfold put
  by_cases h : entries.any (·.1 == name) = true
  · rw [if_pos h, get?_replace]
    by_cases hother : name = other
    · have hsome : get? entries other ≠ none := fun hnone => by
        rw [← hother, get?_eq_none_iff] at hnone
        exact absurd h (by simp [hnone])
      obtain ⟨old, hold⟩ := Option.ne_none_iff_exists'.mp hsome
      rw [if_pos hother, if_pos hother, hold]
      rfl
    · rw [if_neg hother, if_neg hother]
  · rw [if_neg h, get?_concat]
    by_cases hother : name = other
    · have hnone : get? entries other = none := by
        rw [← hother, get?_eq_none_iff]
        exact Bool.eq_false_iff.mpr h
      rw [hnone, if_pos hother, Option.none_or]
    · rw [if_neg hother, if_neg hother, Option.or_none]

theorem get?_filter_ne (entries : List (String × α)) (name other : String) :
    get? (entries.filter (·.1 != name)) other =
      if name = other then none else get? entries other := by
  induction entries with
  | nil => by_cases h : name = other <;> simp [get?]
  | cons entry entries ih =>
    by_cases hentry : entry.1 = name
    · rw [List.filter_cons_of_neg (by simp [hentry]), ih, get?_cons]
      by_cases hother : name = other <;> simp [hentry, hother]
    · rw [List.filter_cons_of_pos (by simp [hentry]), get?_cons, get?_cons, ih]
      by_cases hother : name = other
      · simp [← hother, hentry]
      · simp [hother]

end QueryPicker.Entries
