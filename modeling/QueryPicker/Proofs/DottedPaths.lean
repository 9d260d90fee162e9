import Mathlib
import QueryPicker.FieldPath

/-!
# The dotted form of a path

Reading the dotted form takes blanks away in two places, around the whole text and around each part
between two dots, and looks for the marker between the two: the first part has to be a marker as it
stands. What is read is the same path again when it is written and read once more, and nothing else
is written with the same text.
-/

namespace QueryPicker

namespace Text

variable {cs t part : List Char} {parts : List (List Char)} {sep : Char}

def AllBlank (cs : List Char) : Prop := ∀ c ∈ cs, isBlank c = true

instance (cs : List Char) : Decidable (AllBlank cs) :=
  decidable_of_iff (cs.all isBlank = true) List.all_eq_true

/-- No blank character stands at either end. -/
structure Trimmed (cs : List Char) : Prop where
  first : ∀ c, cs.head? = some c → isBlank c = false
  last : ∀ c, cs.getLast? = some c → isBlank c = false

/-- The second text is the first without the blanks at its ends. -/
def Trims (cs t : List Char) : Prop :=
  Trimmed t ∧ ∃ before after, AllBlank before ∧ AllBlank after ∧ cs = before ++ t ++ after

theorem dropWhile_isBlank_eq_self (h : ∀ c, cs.head? = some c → isBlank c = false) :
    cs.dropWhile isBlank = cs := by
  cases cs with
  | nil => rfl
  | cons c cs => exact List.dropWhile_cons_of_neg (by simp [h c rfl])

theorem isBlank_of_head?_dropWhile {c : Char} (h : (cs.dropWhile isBlank).head? = some c) :
    isBlank c = false := by
  have hnot := List.head?_dropWhile_not isBlank cs
  rw [h] at hnot
  exact hnot

theorem trimChars_eq (cs : List Char) :
    trimChars cs = (cs.dropWhile isBlank).rdropWhile isBlank := rfl

theorem trimmed_trimChars (cs : List Char) : Trimmed (trimChars cs) where
  first c hc := by
    obtain ⟨after, hafter⟩ := List.rdropWhile_prefix isBlank (l := cs.dropWhile isBlank)
    have hhead : (cs.dropWhile isBlank).head? = some c := by
      rw [← hafter, ← trimChars_eq, List.head?_append, hc, Option.some_or]
    exact isBlank_of_head?_dropWhile hhead
  last c hc := by
    rw [trimChars, List.getLast?_reverse] at hc
    exact isBlank_of_head?_dropWhile hc

theorem Trimmed.around (h : Trimmed t) {before after : List Char} (hbefore : AllBlank before)
    (hafter : AllBlank after) : trimChars (before ++ t ++ after) = t := by
  have hstart : (before ++ t ++ after).dropWhile isBlank = (t ++ after).dropWhile isBlank := by
    rw [List.append_assoc, List.dropWhile_append_of_pos hbefore]
  rw [trimChars, hstart]
  by_cases ht : t = []
  · subst ht
    rw [List.nil_append, List.dropWhile_eq_nil_iff.mpr hafter]
    rfl
  · have hfirst : (t ++ after).dropWhile isBlank = t ++ after := by
      refine dropWhile_isBlank_eq_self fun c hc => h.first c ?_
      rwa [List.head?_append_of_ne_nil _ ht] at hc
    have hlast : t.reverse.dropWhile isBlank = t.reverse :=
      dropWhile_isBlank_eq_self fun c hc => h.last c (by rwa [List.head?_reverse] at hc)
    rw [hfirst, List.reverse_append,
      List.dropWhile_append_of_pos fun c hc => hafter c (List.mem_reverse.mp hc), hlast,
      List.reverse_reverse]

theorem trims_iff : Trims cs t ↔ trimChars cs = t := by
  constructor
  · rintro ⟨ht, before, after, hbefore, hafter, rfl⟩
    exact ht.around hbefore hafter
  · rintro rfl
    refine ⟨trimmed_trimChars cs, cs.takeWhile isBlank, (cs.dropWhile isBlank).rtakeWhile isBlank,
      fun c hc => List.mem_takeWhile_imp hc, fun c hc => List.mem_rtakeWhile_imp hc, ?_⟩
    rw [trimChars_eq, List.append_assoc, List.rdropWhile_append_rtakeWhile,
      List.takeWhile_append_dropWhile]

theorem Trimmed.trims (h : Trimmed t) : Trims t t :=
  ⟨h, [], [], by decide, by decide, by simp⟩

theorem trimmed_iff : Trimmed cs ↔ trimChars cs = cs :=
  ⟨fun h => trims_iff.mp h.trims, fun h => h ▸ trimmed_trimChars cs⟩

theorem Trims.subset (h : Trims cs t) : t ⊆ cs := by
  obtain ⟨-, before, after, -, -, rfl⟩ := h
  intro c hc
  simp [hc]

theorem Trims.eq_nil_iff (h : Trims cs t) : t = [] ↔ AllBlank cs := by
  obtain ⟨ht, before, after, hbefore, hafter, rfl⟩ := h
  constructor
  · rintro rfl
    intro c hc
    rw [List.append_nil, List.mem_append] at hc
    exact hc.elim (hbefore c) (hafter c)
  · intro hblank
    by_contra hne
    obtain ⟨c, t, rfl⟩ := List.exists_cons_of_ne_nil hne
    have hc : isBlank c = true := hblank c (by simp)
    rw [ht.first c rfl] at hc
    exact Bool.false_ne_true hc

/-- What stands between two texts has no part in whether the whole is trimmed. -/
theorem Trimmed.append (hcs : Trimmed cs) (ht : Trimmed t) (hcs' : cs ≠ []) (ht' : t ≠ [])
    (between : List Char) : Trimmed (cs ++ between ++ t) where
  first c hc := by
    rw [List.append_assoc, List.head?_append_of_ne_nil _ hcs'] at hc
    exact hcs.first c hc
  last c hc := by
    rw [List.getLast?_append_of_ne_nil _ ht'] at hc
    exact ht.last c hc

theorem trimmed_intercalate (hne : parts ≠ []) (h : ∀ part ∈ parts, part ≠ [] ∧ Trimmed part)
    (between : List Char) :
    between.intercalate parts ≠ [] ∧ Trimmed (between.intercalate parts) := by
  induction parts with
  | nil => exact absurd rfl hne
  | cons part parts ih =>
    obtain ⟨hpart, htrimmed⟩ := h part List.mem_cons_self
    cases parts with
    | nil => rw [List.intercalate_singleton]; exact ⟨hpart, htrimmed⟩
    | cons next parts =>
      obtain ⟨hrest, htrimmed'⟩ := ih (List.cons_ne_nil _ _) fun p hp =>
        h p (List.mem_cons_of_mem _ hp)
      rw [List.intercalate_cons_cons]
      exact ⟨by simp [hpart], htrimmed.append htrimmed' hpart hrest between⟩

theorem splitAt_eq_splitOn (sep : Char) (cs : List Char) : splitAt sep cs = cs.splitOn sep := by
  induction cs with
  | nil => rw [List.splitOn_nil]; rfl
  | cons c cs ih =>
    rw [List.splitOn_eq_splitOnP] at ih ⊢
    rw [List.splitOnP_cons_eq_if_modifyHead, ← ih, splitAt]
    by_cases hc : c = sep
    · simp [hc]
    · obtain ⟨part, parts, hparts⟩ := List.exists_cons_of_ne_nil (splitAt_ne_nil sep cs)
      simp [hc, hparts]

theorem notMem_of_mem_splitAt (h : part ∈ splitAt sep cs) : sep ∉ part := by
  induction cs generalizing part with
  | nil => simp_all [splitAt]
  | cons c cs ih =>
    obtain ⟨next, parts, hparts⟩ := List.exists_cons_of_ne_nil (splitAt_ne_nil sep cs)
    rw [hparts] at ih
    by_cases hc : c = sep
    · rw [splitAt, if_pos hc, hparts] at h
      rcases List.mem_cons.mp h with rfl | h
      · exact List.not_mem_nil
      · exact ih h
    · rw [splitAt, if_neg hc, hparts] at h
      rcases List.mem_cons.mp h with rfl | h
      · simpa [Ne.symm hc] using ih List.mem_cons_self
      · exact ih (List.mem_cons_of_mem _ h)

theorem splitAt_eq_iff : splitAt sep cs = parts ↔
    parts ≠ [] ∧ (∀ part ∈ parts, sep ∉ part) ∧ [sep].intercalate parts = cs := by
  constructor
  · rintro rfl
    refine ⟨splitAt_ne_nil sep cs, fun part => notMem_of_mem_splitAt, ?_⟩
    rw [splitAt_eq_splitOn]
    exact List.intercalate_splitOn sep
  · rintro ⟨hne, hsep, rfl⟩
    rw [splitAt_eq_splitOn]
    exact List.splitOn_intercalate sep hsep hne

end Text

namespace FieldPath

open Text (AllBlank Trimmed Trims)

variable {s : String} {parts : List (List Char)} {p q : FieldPath} {e : ParseError}

/-- A name that can stand between two dots. -/
structure IsSegment (name : String) : Prop where
  ne_empty : name.toList ≠ []
  no_dot : '.' ∉ name.toList
  trimmed : Trimmed name.toList

/-- A path that can be told from its dotted form. -/
structure IsDotted (p : FieldPath) : Prop where
  marker : ∃ op : Operation, p.head? = some op.marker
  segments : ∀ name ∈ p, IsSegment name

/-- Between blanks the text consists of the parts, with one dot from each to the next. -/
structure HasParts (s : String) (parts : List (List Char)) : Prop where
  ne_nil : parts ≠ []
  no_dot : ∀ part ∈ parts, '.' ∉ part
  trims : Trims s.toList (['.'].intercalate parts)

/-- Why a text of these parts is no path. A blank part comes before a first part that is no
marker. -/
inductive Refuses (s : String) (parts : List (List Char)) : ParseError → Prop where
  | empty (part : List Char) : part ∈ parts → AllBlank part → Refuses s parts (.emptySegment s)
  | marker (first : List Char) : (∀ part ∈ parts, ¬ AllBlank part) → parts.head? = some first →
      (∀ op : Operation, String.ofList first ≠ op.marker) →
      Refuses s parts (.unknownRootMarker (String.ofList first))

theorem isSegment_marker (op : Operation) : IsSegment op.marker := by
  cases op <;> exact ⟨by decide, by decide, Text.trimmed_iff.mpr (by decide)⟩

theorem hasParts_iff : HasParts s parts ↔ Text.splitAt '.' (Text.trimChars s.toList) = parts := by
  rw [Text.splitAt_eq_iff]
  constructor
  · rintro ⟨hne, hdot, htrims⟩
    exact ⟨hne, hdot, (Text.trims_iff.mp htrims).symm⟩
  · rintro ⟨hne, hdot, htrims⟩
    exact ⟨hne, hdot, Text.trims_iff.mpr htrims.symm⟩

theorem existsUnique_hasParts (s : String) : ∃! parts, HasParts s parts :=
  ⟨_, hasParts_iff.mpr rfl, fun _ h => (hasParts_iff.mp h).symm⟩

/-- A segment and the part it is read from. -/
theorem isSegment_of_trims {part : List Char} {name : String} (hdot : '.' ∉ part)
    (hpart : ¬ AllBlank part) (h : Trims part name.toList) : IsSegment name where
  ne_empty hname := hpart (h.eq_nil_iff.mp hname)
  no_dot hmem := hdot (h.subset hmem)
  trimmed := h.1

theorem IsSegment.not_allBlank {name : String} (h : IsSegment name) : ¬ AllBlank name.toList := by
  exact fun hblank => h.ne_empty (h.trimmed.trims.eq_nil_iff.mpr hblank)

theorem parse_eq (h : HasParts s parts) : parse s =
    if parts.any (·.all Text.isBlank) then .error (.emptySegment s)
    else if (Operation.ofMarker? (String.ofList (parts.headD []))).isNone then
      .error (.unknownRootMarker (String.ofList (parts.headD [])))
    else .ok (parts.map fun part => String.ofList (Text.trimChars part)) := by
  rw [parse, hasParts_iff.mp h]

theorem any_blank_iff :
    parts.any (·.all Text.isBlank) = true ↔ ∃ part ∈ parts, AllBlank part := by
  simp only [List.any_eq_true, List.all_eq_true, AllBlank]

theorem ofMarker?_isNone_iff {name : String} :
    (Operation.ofMarker? name).isNone = true ↔ ∀ op : Operation, name ≠ op.marker := by
  rw [Option.isNone_iff_eq_none, Option.eq_none_iff_forall_ne_some]
  exact forall_congr' fun op => not_congr Operation.ofMarker?_eq_some

/-- A text is refused for one of the two reasons or every part of it gives a segment. -/
theorem parse_cases (h : HasParts s parts) :
    (∃ e, Refuses s parts e ∧ parse s = .error e) ∨
      (∃ op : Operation, parts.head? = some op.marker.toList) ∧
        (∀ part ∈ parts, ¬ AllBlank part) ∧
        parse s = .ok (parts.map fun part => String.ofList (Text.trimChars part)) := by
  obtain ⟨first, rest, rfl⟩ := List.exists_cons_of_ne_nil h.ne_nil
  by_cases hblank : ∃ part ∈ first :: rest, AllBlank part
  · obtain ⟨part, hpart, hall⟩ := hblank
    refine .inl ⟨_, .empty part hpart hall, ?_⟩
    rw [parse_eq h, if_pos (any_blank_iff.mpr ⟨part, hpart, hall⟩)]
  · have hfull : ∀ part ∈ first :: rest, ¬ AllBlank part := by simpa using hblank
    by_cases hmarker : ∀ op : Operation, String.ofList first ≠ op.marker
    · refine .inl ⟨_, .marker first hfull rfl hmarker, ?_⟩
      rw [parse_eq h, if_neg (mt any_blank_iff.mp hblank), List.headD_cons,
        if_pos (ofMarker?_isNone_iff.mpr hmarker)]
    · refine .inr ⟨?_, hfull, ?_⟩
      · obtain ⟨op, hop⟩ := not_forall_not.mp hmarker
        exact ⟨op, by rw [← hop, String.toList_ofList]; rfl⟩
      · rw [parse_eq h, if_neg (mt any_blank_iff.mp hblank), List.headD_cons,
          if_neg (mt ofMarker?_isNone_iff.mp hmarker)]

theorem Refuses.unique {e e' : ParseError} (h : Refuses s parts e) (h' : Refuses s parts e') :
    e = e' := by
  cases h with
  | empty part hpart hblank =>
    cases h' with
    | empty => rfl
    | marker _ hfull => exact absurd hblank (hfull part hpart)
  | marker first hfull hfirst =>
    cases h' with
    | empty part hpart hblank => exact absurd hblank (hfull part hpart)
    | marker first' _ hfirst' => rw [Option.some.inj (hfirst.symm.trans hfirst')]

theorem not_refuses {op : Operation} (hfirst : parts.head? = some op.marker.toList)
    (hfull : ∀ part ∈ parts, ¬ AllBlank part) : ¬ Refuses s parts e := by
  intro h
  cases h with
  | empty part hpart hblank => exact hfull part hpart hblank
  | marker first _ hfirst' hmarker =>
    rw [hfirst, Option.some.injEq] at hfirst'
    exact hmarker op (by rw [← hfirst', String.ofList_toList])

theorem parse_eq_error_iff (h : HasParts s parts) : parse s = .error e ↔ Refuses s parts e := by
  rcases parse_cases h with ⟨e', hrefuses, hparse⟩ | ⟨⟨op, hfirst⟩, hfull, hparse⟩
  · rw [hparse, Except.error.injEq]
    exact ⟨fun he => he ▸ hrefuses, fun he => hrefuses.unique he⟩
  · rw [hparse]
    exact ⟨nofun, fun he => absurd he (not_refuses hfirst hfull)⟩

theorem parse_eq_ok (h : HasParts s parts) (hp : parse s = .ok p) :
    (∃ op : Operation, parts.head? = some op.marker.toList) ∧ (∀ part ∈ parts, ¬ AllBlank part) ∧
      p = parts.map fun part => String.ofList (Text.trimChars part) := by
  rcases parse_cases h with ⟨e, -, hparse⟩ | ⟨hfirst, hfull, hparse⟩
  · rw [hparse] at hp
    nomatch hp
  · rw [hparse, Except.ok.injEq] at hp
    exact ⟨hfirst, hfull, hp.symm⟩

/-- Every part gives the segment in its place, without the blanks around it. -/
theorem forall₂_trims (h : HasParts s parts) (hp : parse s = .ok p) :
    List.Forall₂ (fun part name => Trims part name.toList) parts p := by
  obtain ⟨-, -, rfl⟩ := parse_eq_ok h hp
  rw [List.forall₂_map_right_iff, List.forall₂_same]
  intro part _
  exact Text.trims_iff.mpr (by rw [String.toList_ofList])

theorem isDotted_of_parse (hp : parse s = .ok p) : IsDotted p := by
  obtain ⟨parts, h, -⟩ := existsUnique_hasParts s
  obtain ⟨⟨op, hfirst⟩, hfull, rfl⟩ := parse_eq_ok h hp
  constructor
  · refine ⟨op, ?_⟩
    rw [List.head?_map, hfirst, Option.map_some,
      Text.trimmed_iff.mp (isSegment_marker op).trimmed, String.ofList_toList]
  · intro name hname
    obtain ⟨part, hpart, rfl⟩ := List.mem_map.mp hname
    refine isSegment_of_trims (h.no_dot part hpart) (hfull part hpart) (Text.trims_iff.mpr ?_)
    rw [String.toList_ofList]

theorem IsDotted.ne_nil (h : IsDotted p) : p ≠ [] := by
  obtain ⟨op, hop⟩ := h.marker
  rintro rfl
  nomatch hop

theorem IsDotted.hasParts (h : IsDotted p) : HasParts p.dotted (p.map String.toList) := by
  have hne : p.map String.toList ≠ [] := by simpa using h.ne_nil
  refine ⟨hne, ?_, ?_⟩
  · intro part hpart
    obtain ⟨name, hname, rfl⟩ := List.mem_map.mp hpart
    exact (h.segments name hname).no_dot
  · have htrimmed : Trimmed (['.'].intercalate (p.map String.toList)) := by
      refine (Text.trimmed_intercalate hne fun part hpart => ?_) ['.'] |>.2
      obtain ⟨name, hname, rfl⟩ := List.mem_map.mp hpart
      exact ⟨(h.segments name hname).ne_empty, (h.segments name hname).trimmed⟩
    have hdotted : p.dotted.toList = ['.'].intercalate (p.map String.toList) :=
      String.toList_intercalate
    rw [hdotted]
    exact htrimmed.trims

theorem IsDotted.parse_dotted (h : IsDotted p) : parse p.dotted = .ok p := by
  obtain ⟨op, hop⟩ := h.marker
  have hfull : ∀ part ∈ p.map String.toList, ¬ AllBlank part := by
    intro part hpart
    obtain ⟨name, hname, rfl⟩ := List.mem_map.mp hpart
    exact (h.segments name hname).not_allBlank
  have hfirst : (p.map String.toList).head? = some op.marker.toList := by
    rw [List.head?_map, hop, Option.map_some]
  rcases parse_cases h.hasParts with ⟨e, hrefuses, -⟩ | ⟨-, -, hparse⟩
  · exact absurd hrefuses (not_refuses hfirst hfull)
  · rw [hparse, List.map_map, Except.ok.injEq]
    refine (List.map_congr_left fun name hname => ?_).trans (List.map_id p)
    rw [Function.comp_apply, Text.trimmed_iff.mp (h.segments name hname).trimmed,
      String.ofList_toList, id]

theorem dotted_inj (hp : IsDotted p) (hq : IsDotted q) (h : p.dotted = q.dotted) : p = q :=
  Except.ok.inj (hp.parse_dotted.symm.trans (h ▸ hq.parse_dotted))

/-- What is read from a text is a path of segments below a marker, one for every part of the text,
and such a path is read back from its dotted form, which no other has. A text is refused for a blank
part, or for a first part that is no marker as it stands, and for nothing else. -/
theorem parse_dotted_exact :
    (∀ s p, parse s = .ok p → IsDotted p ∧ parse p.dotted = .ok p ∧
      ∀ parts, HasParts s parts →
        List.Forall₂ (fun part name => Trims part name.toList) parts p) ∧
    (∀ p, IsDotted p → parse p.dotted = .ok p) ∧
    (∀ p q, IsDotted p → IsDotted q → p.dotted = q.dotted → p = q) ∧
    (∀ s, ∃! parts, HasParts s parts) ∧
    ∀ s parts e, HasParts s parts → (parse s = .error e ↔ Refuses s parts e) := by
  refine ⟨fun s p hp => ?_, fun p hp => hp.parse_dotted, fun p q => dotted_inj,
    existsUnique_hasParts, fun s parts e => parse_eq_error_iff⟩
  have hdotted : IsDotted p := isDotted_of_parse hp
  exact ⟨hdotted, hdotted.parse_dotted, fun parts h => forall₂_trims h hp⟩

/-- Blanks around a segment are lost, none may stand between the marker and its dot, and a blank
part is reported before a wrong marker. -/
theorem parse_dotted_exact_spaced :
    let spaced := "\tQuery. user .name "
    let p : FieldPath := ["Query", "user", "name"]
    (parse spaced = .ok p ∧ IsDotted p ∧ parse "Query.user.name" = .ok p ∧
      HasParts spaced ["Query".toList, " user ".toList, "name".toList]) ∧
    parse "Query .user" = .error (.unknownRootMarker "Query ") ∧
    parse "User. " = .error (.emptySegment "User. ") := by
  obtain ⟨hread, -, -, -, herror⟩ := parse_dotted_exact
  have hspaced : parse "\tQuery. user .name " = .ok ["Query", "user", "name"] := by decide
  obtain ⟨hdotted, hback, -⟩ := hread _ _ hspaced
  have hmarker : HasParts "Query .user" ["Query ".toList, "user".toList] :=
    hasParts_iff.mpr (by decide)
  have hempty : HasParts "User. " ["User".toList, []] := hasParts_iff.mpr (by decide)
  refine ⟨⟨hspaced, hdotted, hback, hasParts_iff.mpr (by decide)⟩,
    (herror _ _ _ hmarker).mpr ?_, (herror _ _ _ hempty).mpr ?_⟩
  · refine .marker "Query ".toList (by decide) rfl fun op => ?_
    cases op <;> decide
  · exact .empty [] (by decide) (by decide)

end FieldPath

end QueryPicker
