import Mathlib.Data.Nat.Cast.Defs

/-! # Small numerals

A numeral of a ring rests on a proof that it is at least two. Opening this namespace
gives the numerals of the worked examples one named proof each.
-/

namespace Numerals

scoped instance two : Nat.AtLeastTwo 2 := ⟨by decide⟩
scoped instance three : Nat.AtLeastTwo 3 := ⟨by decide⟩
scoped instance four : Nat.AtLeastTwo 4 := ⟨by decide⟩
scoped instance five : Nat.AtLeastTwo 5 := ⟨by decide⟩
scoped instance seven : Nat.AtLeastTwo 7 := ⟨by decide⟩
scoped instance eleven : Nat.AtLeastTwo 11 := ⟨by decide⟩
scoped instance twelve : Nat.AtLeastTwo 12 := ⟨by decide⟩
scoped instance thirteen : Nat.AtLeastTwo 13 := ⟨by decide⟩
scoped instance fourteen : Nat.AtLeastTwo 14 := ⟨by decide⟩
scoped instance fifty : Nat.AtLeastTwo 50 := ⟨by decide⟩
scoped instance hundred : Nat.AtLeastTwo 100 := ⟨by decide⟩

end Numerals
