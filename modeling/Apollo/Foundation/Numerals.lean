import Mathlib.Data.Nat.Cast.Defs

/-! Numerals of arbitrary fields. The instance that Lean finds by itself is an application, of which each module makes
an auxiliary lemma; these are constants, so that definitions in different modules mention the same one. -/
namespace Apollo.Foundation

instance atLeastTwo_two : Nat.AtLeastTwo 2 := inferInstance

instance atLeastTwo_three : Nat.AtLeastTwo 3 := inferInstance

instance atLeastTwo_four : Nat.AtLeastTwo 4 := inferInstance

instance atLeastTwo_five : Nat.AtLeastTwo 5 := inferInstance

instance atLeastTwo_six : Nat.AtLeastTwo 6 := inferInstance

instance atLeastTwo_eight : Nat.AtLeastTwo 8 := inferInstance

instance atLeastTwo_ten : Nat.AtLeastTwo 10 := inferInstance

end Apollo.Foundation
