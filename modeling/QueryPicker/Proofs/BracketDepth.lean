import Mathlib
import QueryPicker.Proofs.WrittenText

/-!
# Brackets in written text

How deep brackets nest in literals, argument lists and nested fields. What is written closes every
bracket that it opens, so the budget is left as it was, and it lasts if the depth stays within it.
-/

namespace QueryPicker

namespace Token

/-- With `depth` levels to spare the tokens never run out of levels, and they give all back. -/
def Balanced (ts : List Token) (depth : Nat) : Prop :=
  ∀ levels, depth ≤ levels → levelsAfterAll? levels ts = some levels

namespace Balanced

variable {ts us : List Token} {c d : Nat}

theorem nil : Balanced [] 0 := fun _ _ => rfl

theorem append (hts : Balanced ts c) (hus : Balanced us d) : Balanced (ts ++ us) (max c d) := by
  intro levels hle
  rw [levelsAfterAll?_append, hts levels (by omega), Option.bind_some, hus levels (by omega)]

theorem cons {t : Token} (ht : ∀ levels, t.levelsAfter? levels = some levels)
    (h : Balanced ts d) : Balanced (t :: ts) d := by
  intro levels hle
  rw [levelsAfterAll?, ht, Option.bind_some, h levels hle]

theorem singleton {t : Token} (ht : ∀ levels, t.levelsAfter? levels = some levels) :
    Balanced [t] 0 := cons ht nil

/-- Brackets around balanced tokens take one more level. -/
theorem enclosed {opening closing : Token}
    (hopen : ∀ levels, opening.levelsAfter? (levels + 1) = some levels)
    (hclose : ∀ levels, closing.levelsAfter? levels = some (levels + 1)) (h : Balanced ts d) :
    Balanced (opening :: ts ++ [closing]) (d + 1) := by
  intro levels hle
  obtain ⟨left, rfl⟩ : ∃ left, levels = left + 1 := ⟨levels - 1, by omega⟩
  rw [List.cons_append, levelsAfterAll?, hopen, Option.bind_some, levelsAfterAll?_append,
    h left (by omega), Option.bind_some, levelsAfterAll?, hclose]
  rfl

end Balanced

end Token

open Token (Balanced)

namespace Literal

mutual

def bracketDepth : Literal → Nat
  | list items => depthOfAll items + 1
  | _ => 0

def depthOfAll : List Literal → Nat
  | [] => 0
  | item :: items => max (bracketDepth item) (depthOfAll items)

end

mutual

theorem balanced_tokens : ∀ l : Literal, Balanced l.tokens l.bracketDepth
  | null => .singleton fun _ => rfl
  | bool _ => .singleton fun _ => rfl
  | int _ => .singleton fun _ => rfl
  | float _ => .singleton fun _ => rfl
  | string _ => .singleton fun _ => rfl
  | enumValue _ => .singleton fun _ => rfl
  | list items => .enclosed (fun _ => rfl) (fun _ => rfl) (balanced_tokensOfAll items)

theorem balanced_tokensOfAll : ∀ items : List Literal,
    Balanced (tokensOfAll items) (depthOfAll items)
  | [] => .nil
  | item :: items => (balanced_tokens item).append (balanced_tokensOfAll items)

end

end Literal

namespace Arguments

def depthOfValues : Arguments → Nat
  | [] => 0
  | (_, value) :: args => max value.bracketDepth (depthOfValues args)

def bracketDepth (args : Arguments) : Nat :=
  if args.isEmpty then 0 else depthOfValues args + 1

theorem balanced_values (args : Arguments) :
    Balanced (args.flatMap tokensOfOne) (depthOfValues args) := by
  induction args with
  | nil => exact .nil
  | cons arg args ih =>
    have harg := Balanced.cons (t := .name arg.1.toList) (fun _ => rfl)
      (Balanced.cons (t := .punctuator .colon) (fun _ => rfl) arg.2.balanced_tokens)
    exact harg.append ih

theorem balanced_tokens (args : Arguments) : Balanced args.tokens args.bracketDepth := by
  unfold tokens bracketDepth
  split_ifs
  · exact .nil
  · exact .enclosed (fun _ => rfl) (fun _ => rfl) (balanced_values args)

end Arguments

namespace FieldTree

mutual

def bracketDepth : FieldTree → Nat
  | node _ args children =>
    max args.bracketDepth (if children.isEmpty then 0 else depthOfAll children + 1)

def depthOfAll : List FieldTree → Nat
  | [] => 0
  | tree :: trees => max (bracketDepth tree) (depthOfAll trees)

end

mutual

theorem balanced_tokens : ∀ tree : FieldTree, Balanced tree.tokens tree.bracketDepth
  | node _ args [] =>
    .cons (fun _ => rfl) (args.balanced_tokens.append .nil)
  | node _ args (child :: more) =>
    .cons (fun _ => rfl) (args.balanced_tokens.append
      (.enclosed (fun _ => rfl) (fun _ => rfl) (balanced_tokensOfAll (child :: more))))

theorem balanced_tokensOfAll : ∀ trees : List FieldTree,
    Balanced (tokensOfAll trees) (depthOfAll trees)
  | [] => .nil
  | tree :: trees => (balanced_tokens tree).append (balanced_tokensOfAll trees)

end

theorem balanced_operationTokens (op : Operation) (trees : List FieldTree) :
    Balanced (operationTokens op trees) (depthOfAll trees + 1) :=
  .cons (fun _ => rfl) (.enclosed (fun _ => rfl) (fun _ => rfl) (balanced_tokensOfAll trees))

end FieldTree

end QueryPicker
