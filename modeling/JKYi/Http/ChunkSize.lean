import JKYi.Http.ChunkRead

/-!
# The size of a chunk

The digits of a chunk header go through `strtol` into an `int`, which is then added to, compared
and used as a length.
-/

namespace JKYi.Http

open List

/-- What counts of the buffer between two chunks: the last `stale` bytes were not received. -/
structure Buffered where
  data : List UInt8
  stale : ℕ
  stale_le : stale ≤ data.length

namespace Buffered

def received (b : Buffered) : ℕ := b.data.length - b.stale

variable {b : Buffered} {n : ℕ}

/-- Nothing but received bytes counts, or the two bytes that were not received are in the place of
the line end of a chunk that ends the buffer. -/
def Clean (b : Buffered) (n : ℕ) : Prop := b.stale = 0 ∨ b.stale ≤ 2 ∧ b.data.length = n + 2

end Buffered

namespace ResponseMachine

end ResponseMachine

open ResponseMachine

namespace HttpResponseParser

variable {x y : HttpResponseParser} {buffer w v : List UInt8} {c : UInt8}
  {e : Scanner.End HttpResponseParser}

end HttpResponseParser

end JKYi.Http
