/-!
# Powers of two and ten
-/

namespace GlslCompose

def powerOfTwo (exponent : Nat) : Nat := Nat.pow 2 exponent

def powerOfTen (exponent : Nat) : Nat := Nat.pow 10 exponent

end GlslCompose
