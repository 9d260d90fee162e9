import Mathlib
import QueryPicker.Proofs.RoundedQuotients
import QueryPicker.Sample.Variables

/-!
# Draws that end

A draw ends exactly if one of the words to come is accepted. Whether every draw of a whole number
ends depends on the generator: one that comes to the word zero again and again ends all of them, as
zero is accepted for every size, and one that stays at a refused word ends none. The draw of an
amount ends for every generator: the ranges of amounts take up at least half of what lies below a
power of two, and there rounding does not reach the end of the range.
-/

namespace QueryPicker

namespace Random

namespace Draw

variable {σ ω α : Type} {draw : Draw σ ω α} {state : σ}

theorem firstAccepted?_of_accepted {a : α} (h : draw.accept? (draw.next state).1 = some a) :
    draw.firstAccepted? state = some (a, (draw.next state).2) := by
  rw [firstAccepted?, h]

theorem firstAccepted?_of_refused (h : draw.accept? (draw.next state).1 = none) :
    draw.firstAccepted? state = draw.firstAccepted? (draw.next state).2 := by
  rw [firstAccepted?, h]

/-- A draw ends exactly if some word to come is accepted. -/
theorem isSome_firstAccepted?_iff : (draw.firstAccepted? state).isSome ↔
    ∃ count, (draw.accept? (draw.next ((fun s => (draw.next s).2)^[count] state)).1).isSome := by
  constructor
  · intro h
    obtain ⟨result, hresult⟩ := Option.isSome_iff_exists.mp h
    refine firstAccepted?.partial_correctness draw (fun state _ =>
      ∃ count, (draw.accept? (draw.next ((fun s => (draw.next s).2)^[count] state)).1).isSome) ?_
      state result hresult
    intro firstAccepted? ih state result hdraw
    cases haccept : draw.accept? (draw.next state).1 with
    | some a => exact ⟨0, Option.isSome_of_eq_some haccept⟩
    | none =>
      simp only [haccept] at hdraw
      obtain ⟨count, hcount⟩ := ih _ _ hdraw
      exact ⟨count + 1, hcount⟩
  · rintro ⟨count, h⟩
    induction count generalizing state with
    | zero =>
      obtain ⟨a, ha : draw.accept? (draw.next state).1 = some a⟩ := Option.isSome_iff_exists.mp h
      rw [firstAccepted?_of_accepted ha, Option.isSome_some]
    | succ count ih =>
      cases haccept : draw.accept? (draw.next state).1 with
      | some a => rw [firstAccepted?_of_accepted haccept, Option.isSome_some]
      | none =>
        rw [firstAccepted?_of_refused haccept]
        exact ih h

/-- A draw that stays at a refused word does not end. -/
theorem firstAccepted?_of_stays (hstays : (draw.next state).2 = state)
    (hrefused : draw.accept? (draw.next state).1 = none) : draw.firstAccepted? state = none := by
  rw [← Option.not_isSome_iff_eq_none, isSome_firstAccepted?_iff]
  rintro ⟨count, h⟩
  rw [Function.iterate_fixed hstays, hrefused] at h
  cases h

/-- Nothing is drawn from a generator that has no other word than the greatest. -/
example : Generator.smallNumber? ⟨fun _ => (4294967295, ()), fun _ => (0, ())⟩ 1 1000 () = none :=
  firstAccepted?_of_stays rfl (by decide)

end Draw

/-- Every draw of a whole number ends. -/
def Generator.EveryDrawEnds {σ : Type} (g : Generator σ) : Prop :=
  ∀ lo hi, lo < hi → ∀ state,
    (g.wholeNumber? lo hi state).isSome ∧ (g.smallNumber? lo hi state).isSome

theorem scaled?_zero (width size : Nat) : scaled? width size 0 = some 0 := by
  simp [scaled?]

/-- The words are the numbers in their order, and after the last of them the first again. -/
def Generator.counting : Generator UInt64 := ⟨fun w => (w.toUInt32, w + 1), fun w => (w, w + 1)⟩

theorem iterate_succ (count : Nat) (w : UInt64) :
    (fun s => s + 1)^[count] w = w + UInt64.ofNat count := by
  induction count generalizing w with
  | zero => exact (UInt64.add_zero w).symm
  | succ count ih =>
    rw [Function.iterate_succ_apply, ih, UInt64.ofNat_add, add_assoc, add_comm 1]
    rfl

theorem iterate_succ_eq_zero (w : UInt64) : (fun s => s + 1)^[2 ^ 64 - w.toNat] w = 0 := by
  have hw : w.toNat < 2 ^ 64 := w.toNat_lt
  have hsum : (w.toNat + (2 ^ 64 - w.toNat) % 2 ^ 64) % 2 ^ 64 = 0 := by omega
  rw [iterate_succ, ← UInt64.toNat_inj, UInt64.toNat_add, UInt64.toNat_ofNat']
  exact hsum

theorem everyDrawEnds_counting : Generator.counting.EveryDrawEnds := by
  intro lo hi _ state
  constructor
  · refine Draw.isSome_firstAccepted?_iff.mpr ⟨2 ^ 64 - state.toNat, ?_⟩
    show (Option.map _ (scaled? 64 _ ((fun s : UInt64 => s + 1)^[_] state).toNat)).isSome
    rw [iterate_succ_eq_zero, UInt64.toNat_zero, scaled?_zero]
    rfl
  · refine Draw.isSome_firstAccepted?_iff.mpr ⟨2 ^ 64 - state.toNat, ?_⟩
    show (Option.map _ (scaled? 32 _ ((fun s : UInt64 => s + 1)^[_] state).toUInt32.toNat)).isSome
    rw [iterate_succ_eq_zero]
    exact Option.isSome_map.trans (congrArg Option.isSome (scaled?_zero 32 _))

/-- A size of at least half a power of two is at least as many units in the last place below the
power as 52 bits count. -/
theorem units_le {size e : Nat} (hwide : 2 ^ e ≤ 2 * size) :
    (2 : ℚ) ^ ((e : ℤ) - 53) * 2 ^ 52 ≤ size := by
  have hhalf : (2 : ℚ) ^ e = 2 * (2 ^ ((e : ℤ) - 53) * 2 ^ 52) := by
    rw [← zpow_natCast, ← zpow_natCast, ← zpow_add₀ two_ne_zero, ← zpow_one_add₀ two_ne_zero]
    congr 1
    omega
  have hwide : (2 : ℚ) ^ e ≤ 2 * size := by exact_mod_cast hwide
  linarith

/-- A fraction of 52 bits of a size stays one unit below it when it is rounded. -/
theorem magnitude_fraction_le {size e fraction : Nat} (hsize : size ≤ 2 ^ e)
    (hwide : 2 ^ e ≤ 2 * size) (he : e ≤ 53) (hfraction : fraction + 1 ≤ 2 ^ 52) :
    (Binary64.ofRatio false (fraction * size) (2 ^ 52)).magnitude ≤
      size - 2 ^ ((e : ℤ) - 53) := by
  have hpos : 0 < size := by
    have hpower := Nat.two_pow_pos e
    omega
  refine Binary64.magnitude_ofRatio_le_sub (by positivity) hpos hsize he ?_
  have hunits := units_le hwide
  have hfraction : (fraction : ℚ) + 1 ≤ 2 ^ 52 := by exact_mod_cast hfraction
  rw [div_le_iff₀ (by positivity), sub_mul]
  push_cast
  nlinarith

/-- No word is refused for a fraction from a range that takes up at least half of what lies below a
power of two: what is rounded stays one unit in the last place below the end of the range. -/
theorem exists_stretched? {lo hi e word : Nat} (hhi : hi ≤ 2 ^ e)
    (hwide : 2 ^ e ≤ 2 * (hi - lo)) (he : e ≤ 53) (hword : word < 2 ^ 64) :
    ∃ x, stretched? lo hi word = some x := by
  have hless : lo < hi := by
    have hpower := Nat.two_pow_pos e
    omega
  have hdrawn : word / 2 ^ 12 + 1 ≤ 2 ^ 52 := by omega
  have hfirst := magnitude_fraction_le (by omega) hwide he hdrawn
  simp only [stretched?, Nat.pow_eq]
  generalize Binary64.ofRatio false (word / 2 ^ 12 * (hi - lo)) (2 ^ 52) = x at hfirst
  have hsum : ((x.ratio.1 + lo * x.ratio.2 : ℕ) : ℚ) / x.ratio.2 ≤ hi - 2 ^ ((e : ℤ) - 53) := by
    rw [Nat.cast_sub hless.le] at hfirst
    rw [Binary64.magnitude_add_eq]
    linarith
  have hsecond := Binary64.magnitude_ofRatio_le_sub x.ratio_den_pos (by omega) hhi he hsum
  exact ⟨_, if_pos (Binary64.magnitude_lt_iff.mp
    (hsecond.trans_lt (sub_lt_self _ (by positivity))))⟩

end Random

namespace SampleValue

theorem getD_suggested?_mem {α : Type} (table : List (String × α)) (name : String) (a : α) :
    (suggested? table name).getD a ∈ a :: table.map (·.2) := by
  cases hsuggested : suggested? table name with
  | none => exact List.mem_cons_self
  | some b =>
    obtain ⟨entry, hentry, rfl⟩ := Option.map_eq_some_iff.mp hsuggested
    exact List.mem_cons_of_mem _ (List.mem_map_of_mem (List.mem_of_find?_eq_some hentry))

theorem wholeRange_lt (name : String) : (wholeRange name).1 < (wholeRange name).2 := by
  have hranges : ∀ range ∈ [(1, 100), (1, 1000), (18, 80), (1, 100), (2000, 2024)],
      range.1 < range.2 := by decide
  exact hranges _ (getD_suggested?_mem _ name _)

/-- Amounts are drawn from words none of which is refused. -/
theorem exists_fraction?_amountRange {σ : Type} (g : Random.Generator σ) (name : String)
    (state : σ) : ∃ x after,
      g.fraction? (amountRange name).1 (amountRange name).2 state = some (x, after) := by
  have hwide : ∀ range ∈ [(0, 100), (10, 1000), (10, 1000)],
      ∃ e : Nat, range.2 ≤ 2 ^ e ∧ 2 ^ e ≤ 2 * (range.2 - range.1) ∧ e ≤ 53 := by
    intro range hrange
    rcases List.mem_cons.mp hrange with rfl | hrange
    · exact ⟨7, by decide⟩
    · obtain rfl : range = (10, 1000) := by simpa using hrange
      exact ⟨10, by decide⟩
  obtain ⟨e, hhi, hwide, he⟩ :=
    hwide (amountRange name) (getD_suggested?_mem _ name _)
  obtain ⟨x, hx⟩ := Random.exists_stretched? hhi hwide he (g.next64 state).1.toNat_lt
  exact ⟨x, _, Random.Draw.firstAccepted?_of_accepted hx⟩

end SampleValue

end QueryPicker
