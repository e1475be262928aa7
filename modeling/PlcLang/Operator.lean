import PlcLang.Name

/-!
# Operators

The eleven binary operators in their four levels. A tree built by hand may hold a symbol that is no
operator.

* `Operator.ofSymbol`, `Operator.symbol`: inverse to each other.
* `Level`: from the loosest to the tightest.
-/

namespace PlcLang

/-- The binary operators. -/
inductive Operator where
  | and
  | or
  | equal
  | unequal
  | less
  | greater
  | plus
  | minus
  | times
  | divide
  | power
  /-- A symbol that is no operator, or no symbol at all. -/
  | other (symbol : Name)
  deriving DecidableEq, Inhabited

/-- How tightly an operator binds, the loosest level first. -/
inductive Level where
  | logical
  | comparison
  | additive
  | multiplicative
  deriving DecidableEq, Inhabited

namespace Level

/-- The position of the level, the loosest first. -/
def rank : Level → Nat
  | logical => 0
  | comparison => 1
  | additive => 2
  | multiplicative => 3

end Level

namespace Operator

/-- The operators. -/
def all : List Operator :=
  [and, or, equal, unequal, less, greater, plus, minus, times, divide, power]

/-- How the operator is written. -/
def symbol : Operator → String
  | and => "&&"
  | or => "||"
  | equal => "=="
  | unequal => "!="
  | less => "<"
  | greater => ">"
  | plus => "+"
  | minus => "-"
  | times => "*"
  | divide => "/"
  | power => "^"
  | other symbol => symbol.shown

/-- The operator of the given symbol. -/
def ofSymbol (symbol : Name) : Operator :=
  (all.find? (some ·.symbol = symbol)).getD (other symbol)

/-- The level of an operator. -/
def level? : Operator → Option Level
  | and | or => some .logical
  | equal | unequal | less | greater => some .comparison
  | plus | minus => some .additive
  | times | divide | power => some .multiplicative
  | other _ => none

theorem symbol_ofSymbol (s : String) : (ofSymbol s).symbol = s := by
  unfold ofSymbol
  cases h : all.find? (some ·.symbol = some s) with
  | none => rfl
  | some o => simpa using List.find?_some h

theorem ofSymbol_symbol {o : Operator} (h : o ∈ all) : ofSymbol o.symbol = o := by
  simp only [all, List.mem_cons, List.not_mem_nil, or_false] at h
  rcases h with rfl | rfl | rfl | rfl | rfl | rfl | rfl | rfl | rfl | rfl | rfl <;> rfl

end Operator

end PlcLang
