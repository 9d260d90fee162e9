import Mathlib
import QueryPicker.Proofs.JsonText

/-!
# Reading what was written

What a text is read as fits into a text again, and reading that text gives it back. Repeated names
of members are merged, after which the names of an object differ.
-/

namespace QueryPicker

namespace Entries

variable {α : Type} {entries more : List (String × α)}

theorem putAll_of_nodup (h : ((entries ++ more).map (·.1)).Nodup) :
    putAll entries more = entries ++ more := by
  induction more generalizing entries with
  | nil => rw [List.append_nil]; rfl
  | cons e more ih =>
    have hnew : entries.any (·.1 == e.1) = false := by
      rw [List.map_append, List.nodup_append] at h
      simp only [List.any_eq_false, beq_iff_eq]
      exact fun d hd => h.2.2 _ (List.mem_map_of_mem hd) _ List.mem_cons_self
    have hput : put entries e.1 e.2 = entries ++ [e] := by rw [put, if_neg (by simp [hnew])]
    rw [List.append_cons] at h
    rw [List.append_cons, ← ih h, ← hput]
    rfl

theorem nodup_putAll (h : (entries.map (·.1)).Nodup) : ((putAll entries more).map (·.1)).Nodup := by
  induction more generalizing entries with
  | nil => exact h
  | cons e more ih =>
    refine ih ?_
    rw [map_fst_put]
    split
    · exact h
    · rename_i hnew
      refine List.nodup_append.mpr ⟨h, List.nodup_singleton _, fun name hname other hother => ?_⟩
      rw [List.mem_singleton.mp hother]
      exact fun heq => hnew (heq ▸ hname)

theorem mem_putAll {m : String × α} (hm : m ∈ putAll entries more) : m ∈ entries ∨ m ∈ more := by
  induction more generalizing entries with
  | nil => exact .inl hm
  | cons e more ih =>
    rcases ih hm with hput | hmore
    · have hput : m ∈ put entries e.1 e.2 := hput
      unfold put at hput
      split at hput
      · obtain ⟨d, hd, rfl⟩ := List.mem_map.mp hput
        split
        · exact .inr List.mem_cons_self
        · exact .inl hd
      · rcases List.mem_append.mp hput with hd | he
        · exact .inl hd
        · exact .inr (List.mem_singleton.mp he ▸ List.mem_cons_self)
    · exact .inr (List.mem_cons_of_mem e hmore)

/-- Entries with different names are left as they are. -/
theorem merge_of_nodup (h : (entries.map (·.1)).Nodup) : merge entries = entries :=
  putAll_of_nodup h

end Entries

namespace Json

theorem mergeItems_eq (items : List Json) : mergeItems items = items.map merge := by
  induction items with
  | nil => rfl
  | cons item items ih => rw [mergeItems, ih, List.map_cons]

theorem mergeValues_eq (members : Members) :
    mergeValues members = members.map fun m => (m.1, m.2.merge) := by
  induction members with
  | nil => rfl
  | cons m members ih => rw [mergeValues, ih, List.map_cons]

theorem merge_of_fits {v : Json} {depth : Nat} (h : Fits depth v) : v.merge = v := by
  induction h with
  | null => rfl
  | bool => rfl
  | integer => rfl
  | float => rfl
  | string => rfl
  | array _ ih =>
    rw [merge, mergeItems_eq, List.map_congr_left ih, List.map_id']
  | @object depth members hnames _ ih =>
    have hvalues : members.map (fun m => (m.1, m.2.merge)) = members := by
      conv_rhs => rw [← List.map_id' members]
      exact List.map_congr_left fun m hm => by rw [ih m hm]
    rw [merge, mergeValues_eq, hvalues, Entries.merge_of_nodup hnames]

/-- What fits is the same after it was written and read. -/
theorem parse_compact {v : Json} (h : Fits Reader.depthLimit v)
    (hfloats : ∀ x, v.HasFloat x → x.ReadsBack) : parse v.compact = .ok v := by
  have htakes : Reader.Takes (Reader.value false Reader.depthLimit) v.compact.toList v :=
    Reader.takes_compact h hfloats
  have hread := htakes.reads [] Reader.follows_nil
  rw [List.append_nil] at hread
  rw [parse, readAll, hread]
  show Except.ok v.merge = .ok v
  rw [merge_of_fits h]

namespace Reader

variable {skim negative : Bool} {depth : Nat} {cs r : List Char}

theorem fits_of_checkedNumber {v : Json}
    (h : checkedNumber skim (number negative cs) = .ok (v, r)) : Fits depth v.merge := by
  obtain ⟨n, hnumber, rfl, -⟩ := checkedNumber_spec h
  show Fits depth (.number n)
  cases n with
  | integer n =>
    obtain ⟨hlow, hhigh⟩ := range_of_number hnumber
    exact .integer hlow hhigh
  | float x => exact .float x

section Lists

variable {α : Type} {item : List Char → Except JsonError (α × Rest)} {fuel : Nat} {isFirst : Bool}

/-- What holds of an item and of all that is read after it holds of all items. -/
theorem forall_mem_of_more {first : Except JsonError (α × Rest)}
    {others : Rest → Except JsonError (List α × Rest)} {as : List α} {holds : α → Prop}
    (h : (first >>= fun a => others a.2 >>= fun more => pure (a.1 :: more.1, more.2)) = .ok (as, r))
    (hfirst : ∀ a rest, first = .ok (a, rest) → holds a)
    (hothers : ∀ rest more, others rest = .ok (more, r) → ∀ a ∈ more, holds a) :
    ∀ a ∈ as, holds a := by
  obtain ⟨⟨a, rest⟩, ha, h⟩ := Document.bind_eq_ok.mp h
  obtain ⟨⟨more, last⟩, hmore, h⟩ := Document.bind_eq_ok.mp h
  cases h
  intro b hb
  rcases List.mem_cons.mp hb with rfl | hb
  · exact hfirst b rest ha
  · exact hothers rest more hmore b hb

/-- Every item of a list was read by itself. -/
theorem exists_of_mem_itemsTail {as : List α} (h : itemsTail item fuel isFirst cs = .ok (as, r)) :
    ∀ a ∈ as, ∃ text rest, item text = .ok (a, rest) := by
  induction fuel generalizing isFirst cs as r with
  | zero => cases h
  | succ fuel ih =>
    rw [itemsTail] at h
    dsimp only at h
    split at h
    · cases h
    · cases h
      simp
    · split_ifs at h
      · exact forall_mem_of_more h (fun _ rest ha => ⟨_, rest, ha⟩) fun _ _ hmore => ih hmore
      · split at h
        · cases h
        · cases h
        · exact forall_mem_of_more h (fun _ rest ha => ⟨_, rest, ha⟩) fun _ _ hmore => ih hmore

theorem exists_of_member {m : String × α} (h : member skim item cs = .ok (m, r)) :
    ∃ text rest, item text = .ok (m.2, rest) := by
  unfold member at h
  split at h
  · obtain ⟨⟨name, more⟩, -, h⟩ := Document.bind_eq_ok.mp h
    dsimp only at h
    split at h
    · cases h
    · obtain ⟨⟨value, last⟩, hitem, h⟩ := Document.bind_eq_ok.mp h
      cases h
      exact ⟨_, _, hitem⟩
    · cases h
  · cases h

theorem exists_of_mem_membersTail {ms : List (String × α)}
    (h : membersTail skim item fuel isFirst cs = .ok (ms, r)) :
    ∀ m ∈ ms, ∃ text rest, item text = .ok (m.2, rest) := by
  induction fuel generalizing isFirst cs ms r with
  | zero => cases h
  | succ fuel ih =>
    rw [membersTail] at h
    dsimp only at h
    split at h
    · cases h
    · split_ifs at h
      · cases h
        simp
      · exact forall_mem_of_more h (fun _ _ hm => exists_of_member hm) fun _ _ hmore => ih hmore
      · split at h
        · cases h
        · split_ifs at h
          exact forall_mem_of_more h (fun _ _ hm => exists_of_member hm) fun _ _ hmore => ih hmore

end Lists

/-- With repeated names merged, what is read fits. -/
theorem fits_merge {v : Json} (h : value skim depth cs = .ok (v, r)) : Fits depth v.merge := by
  induction depth using Nat.strongRecOn generalizing cs v r with
  | ind depth ih =>
    cases readsValue h with
    | null => exact .null
    | bool b => exact .bool b
    | string s => exact .string s
    | negative _ hread => exact fits_of_checkedNumber hread
    | digit _ _ hread => exact fits_of_checkedNumber hread
    | @array depth items more hread =>
      rw [merge, mergeItems_eq]
      refine .array fun item hitem => ?_
      obtain ⟨before, hbefore, rfl⟩ := List.mem_map.mp hitem
      obtain ⟨text, rest, hvalue⟩ := exists_of_mem_itemsTail hread before hbefore
      exact ih depth (Nat.lt_succ_self depth) hvalue
    | @object depth members more hread =>
      rw [merge, mergeValues_eq]
      refine .object (Entries.nodup_putAll List.nodup_nil) fun m hm => ?_
      obtain ⟨before, hbefore, rfl⟩ :=
        List.mem_map.mp ((Entries.mem_putAll hm).resolve_left List.not_mem_nil)
      obtain ⟨text, rest, hvalue⟩ := exists_of_mem_membersTail hread before hbefore
      exact ih depth (Nat.lt_succ_self depth) hvalue

end Reader

theorem merge_of_parse {text : String} {v : Json} (h : parse text = .ok v) :
    ∃ before r, Reader.value false Reader.depthLimit text.toList = .ok (before, r) ∧
      v = before.merge := by
  unfold parse readAll at h
  cases hread : Reader.value false Reader.depthLimit text.toList with
  | error e =>
    rw [hread] at h
    cases h
  | ok made =>
    obtain ⟨before, r⟩ := made
    rw [hread] at h
    simp only [bind, Except.bind] at h
    split_ifs at h
    · cases h
      exact ⟨before, r, rfl, rfl⟩
    · cases h

/-- What a text is read as fits. -/
theorem fits_of_parse {text : String} {v : Json} (h : parse text = .ok v) :
    Fits Reader.depthLimit v := by
  obtain ⟨before, r, hread, rfl⟩ := merge_of_parse h
  exact Reader.fits_merge hread

theorem Fits.mono {v : Json} {depth depth' : Nat} (h : Fits depth v) (hle : depth ≤ depth') :
    Fits depth' v := by
  induction h generalizing depth' with
  | null => exact .null
  | bool b => exact .bool b
  | integer hlow hhigh => exact .integer hlow hhigh
  | float x => exact .float x
  | string s => exact .string s
  | array _ ih =>
    obtain ⟨depth', rfl⟩ := Nat.exists_eq_succ_of_ne_zero (Nat.ne_zero_of_lt hle)
    exact .array fun item hitem => ih item hitem (Nat.le_of_succ_le_succ hle)
  | object hnames _ ih =>
    obtain ⟨depth', rfl⟩ := Nat.exists_eq_succ_of_ne_zero (Nat.ne_zero_of_lt hle)
    exact .object hnames fun m hm => ih m hm (Nat.le_of_succ_le_succ hle)

end Json

end QueryPicker
