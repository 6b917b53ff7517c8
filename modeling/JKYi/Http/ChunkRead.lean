import JKYi.Http.HeadRead
import Mathlib.Data.List.TakeWhile

/-!
# Reading one chunk

The header of a chunk with digits only, and the data of a chunk, in the buffer or behind it.
-/

namespace JKYi.Http

open List Run

variable {ε : Type}

def crlf : List UInt8 := [13, 10]

/-! Lines with hexadecimal digits only. -/

variable {w : List UInt8}

namespace ResponseMachine

end ResponseMachine

namespace HttpConnection

end HttpConnection
end JKYi.Http
