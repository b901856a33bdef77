/-!
# Literals of finite types

A literal of `Fin n` rests on `n` not being 0. That is an instance here for each size that is
written as a number, so that a literal is the same term wherever it stands.

Without it the instance is found by a search that depends on what has been imported, and two
spellings of the same index, in two modules, would not be the same term.
-/

namespace SonataSystem.Lib

instance neZero_three : @NeZero Nat Zero.ofOfNat0 3 := ⟨by decide⟩

instance neZero_four : @NeZero Nat Zero.ofOfNat0 4 := ⟨by decide⟩

instance neZero_eight : @NeZero Nat Zero.ofOfNat0 8 := ⟨by decide⟩

instance neZero_twelve : @NeZero Nat Zero.ofOfNat0 12 := ⟨by decide⟩

instance neZero_thirtyTwo : @NeZero Nat Zero.ofOfNat0 32 := ⟨by decide⟩

instance neZero_fiveHundredTwelve : @NeZero Nat Zero.ofOfNat0 512 := ⟨by decide⟩

end SonataSystem.Lib
