import Mathlib
import QueryPicker.Document.Grammar

/-!
# What a production leaves

Whatever a production of the grammar reads, it leaves a final piece of its tokens. The last of the
tokens is therefore still there when a document is complete, and a text that ends in something that
is no token is refused.
-/

namespace QueryPicker.Document

theorem bind_eq_ok {ε α β : Type} {x : Except ε α} {f : α → Except ε β} {b : β} :
    (x >>= f) = .ok b ↔ ∃ a, x = .ok a ∧ f a = .ok b := by
  cases x with
  | error e =>
    constructor
    · intro h
      cases h
    · rintro ⟨a, h, -⟩
      cases h
  | ok a =>
    constructor
    · intro h
      exact ⟨a, rfl, h⟩
    · rintro ⟨a', h, hf⟩
      cases h
      exact hf

/-- What the production leaves is a final piece of what it is given. -/
def Leaves {α : Type} (production : Tokens → Except Position (α × Tokens)) : Prop :=
  ∀ {ts : Tokens} {a : α} {rest : Tokens}, production ts = .ok (a, rest) → rest <:+ ts

variable {ts rest : Tokens}

theorem suffix_of_expect {p : Punctuator} (h : expect p ts = .ok rest) : rest <:+ ts := by
  unfold expect at h
  split at h
  · split at h
    · cases h
      exact List.suffix_cons _ _
    · cases h
  · cases h

theorem leaves_expectName : Leaves expectName := by
  intro ts n rest h
  unfold expectName at h
  split at h
  · cases h
    exact List.suffix_cons _ _
  · cases h

theorem suffix_of_name? {n : String} (h : name? ts = some (n, rest)) : rest <:+ ts := by
  unfold name? at h
  split at h
  · cases h
    exact List.suffix_cons _ _
  · cases h

theorem leaves_values (isConst : Bool) (fuel : Nat) :
    Leaves (value isConst fuel) ∧ Leaves (values isConst fuel) ∧
      Leaves (objectFields isConst fuel) := by
  induction fuel with
  | zero =>
    refine ⟨?_, ?_, ?_⟩ <;>
      · intro ts a rest h
        cases h
  | succ fuel ih =>
    obtain ⟨ihvalue, ihvalues, ihfields⟩ := ih
    refine ⟨?_, ?_, ?_⟩
    · intro ts v rest h
      rw [value.eq_def] at h
      dsimp only at h
      split at h
      · cases h
        exact List.suffix_cons _ _
      · split at h <;> cases h
        exact List.suffix_cons _ _
      · split at h <;> cases h
        exact List.suffix_cons _ _
      · split at h <;> cases h
        exact List.suffix_cons _ _
      · cases h
        exact List.suffix_cons _ _
      · split at h
        · cases h
        · obtain ⟨⟨n, more⟩, hname, h⟩ := bind_eq_ok.mp h
          cases h
          exact (leaves_expectName hname).trans (List.suffix_cons _ _)
      · obtain ⟨⟨items, more⟩, hitems, h⟩ := bind_eq_ok.mp h
        cases h
        exact (ihvalues hitems).trans (List.suffix_cons _ _)
      · obtain ⟨⟨fields, more⟩, hfields, h⟩ := bind_eq_ok.mp h
        cases h
        exact (ihfields hfields).trans (List.suffix_cons _ _)
      · cases h
    · intro ts vs rest h
      rw [values.eq_def] at h
      dsimp only at h
      split at h
      · cases h
        exact List.suffix_cons _ _
      · obtain ⟨⟨item, more⟩, hitem, h⟩ := bind_eq_ok.mp h
        obtain ⟨⟨items, last⟩, hitems, h⟩ := bind_eq_ok.mp h
        cases h
        exact (ihvalues hitems).trans (ihvalue hitem)
    · intro ts vs rest h
      rw [objectFields.eq_def] at h
      dsimp only at h
      split at h
      · cases h
        exact List.suffix_cons _ _
      · obtain ⟨⟨n, ts₁⟩, hname, h⟩ := bind_eq_ok.mp h
        obtain ⟨ts₂, hcolon, h⟩ := bind_eq_ok.mp h
        obtain ⟨⟨v, ts₃⟩, hvalue, h⟩ := bind_eq_ok.mp h
        obtain ⟨⟨fields, ts₄⟩, hfields, h⟩ := bind_eq_ok.mp h
        cases h
        exact ((ihfields hfields).trans (ihvalue hvalue)).trans
          ((suffix_of_expect hcolon).trans (leaves_expectName hname))

theorem leaves_value (isConst : Bool) (fuel : Nat) : Leaves (value isConst fuel) :=
  (leaves_values isConst fuel).1

theorem leaves_argument : Leaves argument := by
  intro ts a rest h
  obtain ⟨⟨n, ts₁⟩, hname, h⟩ := bind_eq_ok.mp h
  obtain ⟨ts₂, hcolon, h⟩ := bind_eq_ok.mp h
  obtain ⟨⟨v, ts₃⟩, hvalue, h⟩ := bind_eq_ok.mp h
  cases h
  exact (leaves_value _ _ hvalue).trans ((suffix_of_expect hcolon).trans (leaves_expectName hname))

theorem leaves_argumentsTail (fuel : Nat) : Leaves (argumentsTail fuel) := by
  induction fuel with
  | zero =>
    intro ts a rest h
    cases h
  | succ fuel ih =>
    intro ts args rest h
    rw [argumentsTail] at h
    split at h
    · cases h
      exact List.drop_suffix _ _
    · obtain ⟨⟨arg, ts₁⟩, harg, h⟩ := bind_eq_ok.mp h
      obtain ⟨⟨more, ts₂⟩, hmore, h⟩ := bind_eq_ok.mp h
      cases h
      exact (ih hmore).trans (leaves_argument harg)

theorem leaves_arguments : Leaves arguments := by
  intro ts args rest h
  rw [arguments] at h
  split at h
  · obtain ⟨⟨arg, ts₁⟩, harg, h⟩ := bind_eq_ok.mp h
    obtain ⟨⟨more, ts₂⟩, hmore, h⟩ := bind_eq_ok.mp h
    cases h
    exact (leaves_argumentsTail _ hmore).trans ((leaves_argument harg).trans (List.drop_suffix _ _))
  · cases h
    exact List.suffix_rfl

theorem leaves_directives : Leaves directives := by
  have htail : ∀ fuel, Leaves (directivesTail fuel) := by
    intro fuel
    induction fuel with
    | zero =>
      intro ts a rest h
      cases h
    | succ fuel ih =>
      intro ts ds rest h
      rw [directivesTail] at h
      split at h
      · obtain ⟨⟨n, ts₁⟩, hname, h⟩ := bind_eq_ok.mp h
        obtain ⟨⟨args, ts₂⟩, hargs, h⟩ := bind_eq_ok.mp h
        obtain ⟨⟨more, ts₃⟩, hmore, h⟩ := bind_eq_ok.mp h
        cases h
        exact ((ih hmore).trans (leaves_arguments hargs)).trans
          ((leaves_expectName hname).trans (List.drop_suffix _ _))
      · cases h
        exact List.suffix_rfl
  intro ts ds rest h
  exact htail _ h

theorem leaves_aliased (n : String) {alias? : Option String} {field : String}
    (h : aliased n ts = .ok (alias?, field, rest)) : rest <:+ ts := by
  rw [aliased] at h
  split at h
  · obtain ⟨⟨f, ts₁⟩, hname, h⟩ := bind_eq_ok.mp h
    cases h
    exact (leaves_expectName hname).trans (List.drop_suffix _ _)
  · cases h
    exact List.suffix_rfl

theorem leaves_selections (fuel : Nat) :
    Leaves (selection fuel) ∧ Leaves (selectionSet fuel) ∧ Leaves (selectionsTail fuel) := by
  induction fuel with
  | zero =>
    refine ⟨?_, ?_, ?_⟩ <;>
      · intro ts a rest h
        cases h
  | succ fuel ih =>
    obtain ⟨ihselection, ihset, ihtail⟩ := ih
    refine ⟨?_, ?_, ?_⟩
    · intro ts sel rest h
      rw [selection.eq_def] at h
      dsimp only at h
      split at h
      · obtain ⟨⟨alias?, n, ts₁⟩, hname, h⟩ := bind_eq_ok.mp h
        obtain ⟨⟨args, ts₂⟩, hargs, h⟩ := bind_eq_ok.mp h
        obtain ⟨⟨dirs, ts₃⟩, hdirs, h⟩ := bind_eq_ok.mp h
        have hhead := ((leaves_directives hdirs).trans (leaves_arguments hargs)).trans
          (leaves_aliased _ hname)
        dsimp only at h
        split at h
        · obtain ⟨⟨sels, ts₄⟩, hset, h⟩ := bind_eq_ok.mp h
          cases h
          exact ((ihset hset).trans hhead).trans (List.suffix_cons _ _)
        · cases h
          exact hhead.trans (List.suffix_cons _ _)
      · split at h
        · rename_i hname
          have hhead := suffix_of_name? hname
          split at h
          · obtain ⟨⟨condition, ts₁⟩, hcondition, h⟩ := bind_eq_ok.mp h
            obtain ⟨⟨dirs, ts₂⟩, hdirs, h⟩ := bind_eq_ok.mp h
            obtain ⟨⟨sels, ts₃⟩, hset, h⟩ := bind_eq_ok.mp h
            cases h
            exact ((ihset hset).trans (leaves_directives hdirs)).trans
              (((leaves_expectName hcondition).trans hhead).trans (List.suffix_cons _ _))
          · obtain ⟨⟨dirs, ts₁⟩, hdirs, h⟩ := bind_eq_ok.mp h
            cases h
            exact ((leaves_directives hdirs).trans hhead).trans (List.suffix_cons _ _)
        · obtain ⟨⟨dirs, ts₁⟩, hdirs, h⟩ := bind_eq_ok.mp h
          obtain ⟨⟨sels, ts₂⟩, hset, h⟩ := bind_eq_ok.mp h
          cases h
          exact ((ihset hset).trans (leaves_directives hdirs)).trans (List.suffix_cons _ _)
      · cases h
    · intro ts sels rest h
      rw [selectionSet] at h
      obtain ⟨ts₁, hopen, h⟩ := bind_eq_ok.mp h
      obtain ⟨⟨sel, ts₂⟩, hsel, h⟩ := bind_eq_ok.mp h
      obtain ⟨⟨more, ts₃⟩, hmore, h⟩ := bind_eq_ok.mp h
      cases h
      exact (ihtail hmore).trans ((ihselection hsel).trans (suffix_of_expect hopen))
    · intro ts sels rest h
      rw [selectionsTail] at h
      split at h
      · cases h
        exact List.drop_suffix _ _
      · obtain ⟨⟨sel, ts₁⟩, hsel, h⟩ := bind_eq_ok.mp h
        obtain ⟨⟨more, ts₂⟩, hmore, h⟩ := bind_eq_ok.mp h
        cases h
        exact (ihtail hmore).trans (ihselection hsel)

theorem leaves_selectionSet (fuel : Nat) : Leaves (selectionSet fuel) :=
  (leaves_selections fuel).2.1

theorem suffix_of_variableType {fuel : Nat} (h : variableType fuel ts = .ok rest) :
    rest <:+ ts := by
  induction fuel generalizing ts rest with
  | zero => cases h
  | succ fuel ih =>
    rw [variableType] at h
    have hbang : ∀ us : Tokens, (if startsWith .bang us then us.drop 1 else us) <:+ us := by
      intro us
      split
      · exact List.drop_suffix _ _
      · exact List.suffix_rfl
    split at h
    · obtain ⟨ts₁, hinside, h⟩ := bind_eq_ok.mp h
      obtain ⟨ts₂, hclose, h⟩ := bind_eq_ok.mp h
      cases h
      exact ((hbang _).trans (suffix_of_expect hclose)).trans
        ((ih hinside).trans (List.drop_suffix _ _))
    · obtain ⟨⟨n, ts₁⟩, hname, h⟩ := bind_eq_ok.mp h
      cases h
      exact (hbang _).trans (leaves_expectName hname)

theorem suffix_of_variableDefinition (h : variableDefinition ts = .ok rest) : rest <:+ ts := by
  obtain ⟨ts₁, hdollar, h⟩ := bind_eq_ok.mp h
  obtain ⟨⟨n, ts₂⟩, hname, h⟩ := bind_eq_ok.mp h
  obtain ⟨ts₃, hcolon, h⟩ := bind_eq_ok.mp h
  obtain ⟨ts₄, htype, h⟩ := bind_eq_ok.mp h
  have hhead := ((suffix_of_variableType htype).trans (suffix_of_expect hcolon)).trans
    ((leaves_expectName hname).trans (suffix_of_expect hdollar))
  dsimp only at h
  split at h
  · obtain ⟨⟨v, ts₅⟩, hvalue, h⟩ := bind_eq_ok.mp h
    cases h
    exact ((leaves_value _ _ hvalue).trans (List.drop_suffix _ _)).trans hhead
  · cases h
    exact hhead

theorem suffix_of_variableDefinitions (h : variableDefinitions ts = .ok rest) : rest <:+ ts := by
  have htail : ∀ fuel {us vs : Tokens}, variableDefinitionsTail fuel us = .ok vs → vs <:+ us := by
    intro fuel
    induction fuel with
    | zero =>
      intro us vs h
      cases h
    | succ fuel ih =>
      intro us vs h
      rw [variableDefinitionsTail] at h
      split at h
      · cases h
        exact List.drop_suffix _ _
      · obtain ⟨us₁, hdefinition, h⟩ := bind_eq_ok.mp h
        exact (ih h).trans (suffix_of_variableDefinition hdefinition)
  rw [variableDefinitions] at h
  split at h
  · obtain ⟨ts₁, hdefinition, h⟩ := bind_eq_ok.mp h
    have hsuffix := suffix_of_variableDefinition hdefinition
    exact (htail _ h).trans (hsuffix.trans (List.drop_suffix _ _))
  · cases h
    exact List.suffix_rfl

theorem leaves_operationTail (kind : Operation) : Leaves (operationTail kind) := by
  intro ts d rest h
  obtain ⟨ts₁, hvariables, h⟩ := bind_eq_ok.mp h
  obtain ⟨⟨dirs, ts₂⟩, hdirs, h⟩ := bind_eq_ok.mp h
  obtain ⟨⟨sels, ts₃⟩, hset, h⟩ := bind_eq_ok.mp h
  cases h
  refine ((leaves_selectionSet _ hset).trans (leaves_directives hdirs)).trans
    ((suffix_of_variableDefinitions hvariables).trans ?_)
  split
  · rename_i hname
    exact suffix_of_name? hname
  · exact List.suffix_rfl

theorem leaves_fragmentTail : Leaves fragmentTail := by
  intro ts d rest h
  obtain ⟨⟨n, ts₁⟩, hname, h⟩ := bind_eq_ok.mp h
  dsimp only at h
  split at h
  · rename_i hon
    obtain ⟨⟨condition, ts₂⟩, hcondition, h⟩ := bind_eq_ok.mp h
    obtain ⟨⟨dirs, ts₃⟩, hdirs, h⟩ := bind_eq_ok.mp h
    obtain ⟨⟨sels, ts₄⟩, hset, h⟩ := bind_eq_ok.mp h
    cases h
    exact ((leaves_selectionSet _ hset).trans (leaves_directives hdirs)).trans
      (((leaves_expectName hcondition).trans (suffix_of_name? hon)).trans (leaves_expectName hname))
  · cases h

theorem leaves_definition : Leaves definition := by
  intro ts d rest h
  rw [definition] at h
  split at h
  · rename_i hname
    split at h
    · exact (leaves_operationTail _ h).trans (suffix_of_name? hname)
    · split at h
      · exact (leaves_fragmentTail h).trans (suffix_of_name? hname)
      · cases h
  · obtain ⟨⟨sels, ts₁⟩, hset, h⟩ := bind_eq_ok.mp h
    cases h
    exact leaves_selectionSet _ hset

theorem finish_of_definitionsTail {fuel : Nat} {doc : Document}
    (h : definitionsTail fuel ts = .ok doc) : ∃ pos, [⟨pos, .finish⟩] <:+ ts := by
  induction fuel generalizing ts doc with
  | zero => cases h
  | succ fuel ih =>
    rw [definitionsTail.eq_def] at h
    dsimp only at h
    split at h
    · exact ⟨_, List.suffix_rfl⟩
    · obtain ⟨⟨d, ts₁⟩, hdefinition, h⟩ := bind_eq_ok.mp h
      obtain ⟨ds, htail, -⟩ := bind_eq_ok.mp h
      obtain ⟨pos, hpos⟩ := ih htail
      exact ⟨pos, hpos.trans (leaves_definition hdefinition)⟩

/-- A document ends where its text ends. -/
theorem finish_of_ofTokens {doc : Document} (h : ofTokens ts = .ok doc) :
    ∃ pos, [⟨pos, .finish⟩] <:+ ts := by
  obtain ⟨⟨d, ts₁⟩, hdefinition, h⟩ := bind_eq_ok.mp h
  obtain ⟨ds, htail, -⟩ := bind_eq_ok.mp h
  obtain ⟨pos, hpos⟩ := finish_of_definitionsTail htail
  exact ⟨pos, hpos.trans (leaves_definition hdefinition)⟩

theorem ofTokens_ne_ok_of_junk {found : Tokens} {pos : Position} {doc : Document} :
    ofTokens (found ++ [⟨pos, .junk⟩]) ≠ .ok doc := by
  intro h
  obtain ⟨pos', before, heq⟩ := finish_of_ofTokens h
  obtain ⟨-, hlast⟩ := List.append_inj' heq rfl
  cases hlast

end QueryPicker.Document
