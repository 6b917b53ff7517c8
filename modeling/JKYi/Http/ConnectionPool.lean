import JKYi.Foundation.Interleaving

/-!
# The pool of HTTP connections

`HttpConnectionPool`: `getConnection` and the deleter `ReleasePtr`, interleaved by any number
of users. `Create` hands its limits on in an order that is not the order in which the
constructor takes them, and the maximal size is never looked at. The guard of `getConnection`
unlocks the mutex behind the loop and, in its destructor, once more; the mutex is a flag without
an owner.
-/

namespace JKYi.Http

structure HttpConnection where
  createTime : UInt64
  request : ℕ
  connected : Bool
  deriving DecidableEq, Repr

structure HttpConnectionPool where
  maxSize : UInt32
  maxAliveTime : UInt32
  maxRequest : UInt32
  deriving DecidableEq, Repr

namespace HttpConnectionPool

/-- The constructor, with the order of its definition. -/
def construct (max_size max_request max_alive_time : UInt32) : HttpConnectionPool where
  maxSize := max_size
  maxAliveTime := max_alive_time
  maxRequest := max_request

/-- `Create`, with the order of the constructor's declaration. -/
def create (max_size max_alive_time max_request : UInt32) : HttpConnectionPool :=
  construct max_size max_alive_time max_request

def expired (pool : HttpConnectionPool) (now : UInt64) (conn : HttpConnection) : Bool :=
  conn.createTime + pool.maxAliveTime.toUInt64 < now

def discards (pool : HttpConnectionPool) (now : UInt64) (conn : HttpConnection) : Bool :=
  !conn.connected || pool.expired now conn || pool.maxRequest.toNat ≤ conn.request

/-- Where a user is: in `getConnection` behind the reading of the clock, in the loop, behind
`*m_conns.begin()`, behind the loop, behind `unlock`, without a valid connection or at the end;
holding a connection that was handed out at the time `since`; in `ReleasePtr` before the lock,
before and behind `push_back`. -/
inductive User
  | idle
  | called (now : UInt64)
  | looping (now : UInt64) (invalid : List HttpConnection)
  | front (now : UInt64) (invalid : List HttpConnection) (conn : HttpConnection)
  | looped (ptr : Option HttpConnection) (invalid : List HttpConnection)
  | chosen (ptr : Option HttpConnection) (invalid : List HttpConnection)
  | connecting
  | leaving (ptr : Option HttpConnection)
  | holding (since : UInt64) (conn : HttpConnection)
  | returning (conn : HttpConnection)
  | pushing (conn : HttpConnection)
  | pushed
  deriving DecidableEq

namespace User

def carried : User → ℕ
  | .idle | .called _ | .connecting | .pushed => 0
  | .looping _ invalid | .front _ invalid _ => invalid.length
  | .looped ptr invalid | .chosen ptr invalid => ptr.toList.length + invalid.length
  | .leaving ptr => ptr.toList.length
  | .holding _ _ | .returning _ | .pushing _ => 1

/-- The user is in a call of `getConnection`. -/
def inCall : User → Bool
  | .called _ | .looping _ _ | .front _ _ _ | .looped _ _ | .chosen _ _ | .connecting
  | .leaving _ => true
  | .idle | .holding _ _ | .returning _ | .pushing _ | .pushed => false

/-- The user has locked the mutex and has not come to its `unlock`. -/
def inSection : User → Bool
  | .looping _ _ | .front _ _ _ | .looped _ _ | .pushing _ | .pushed => true
  | .idle | .called _ | .chosen _ _ | .connecting | .leaving _ | .holding _ _
  | .returning _ => false

end User

/-- `m_conns`, `m_total`, the mutex, the clock and the users. -/
structure State (W : Type) where
  conns : List HttpConnection
  total : ℤ
  locked : Bool
  clock : UInt64
  users : W → User

inductive Act (W : Type)
  | tick (time : UInt64)
  | step (w : W)
  | fail (w : W)
  | disconnect (w : W)

/-- What a user does next with `m_conns` and the mutex, and how `m_total` changes. Nothing follows
from `pop_front` on an empty list, and who waits for the mutex does not move. -/
def User.next (pool : HttpConnectionPool) (clock : UInt64) (conns : List HttpConnection)
    (locked : Bool) : User → Option (User × List HttpConnection × Bool × ℤ)
  | .idle => some (.called clock, conns, locked, 0)
  | .called now => if locked then none else some (.looping now [], conns, true, 0)
  | .looping now invalid =>
    match conns with
    | [] => some (.looped none invalid, [], locked, 0)
    | conn :: rest => some (.front now invalid conn, conn :: rest, locked, 0)
  | .front now invalid conn =>
    match conns with
    | [] => none
    | _ :: rest =>
      if !conn.connected || pool.expired now conn then
        some (.looping now (invalid ++ [conn]), rest, locked, 0)
      else some (.looped (some conn) invalid, rest, locked, 0)
  | .looped ptr invalid => some (.chosen ptr invalid, conns, false, 0)
  | .chosen (some conn) invalid => some (.leaving (some conn), conns, locked, -invalid.length)
  | .chosen none invalid => some (.connecting, conns, locked, -invalid.length)
  | .connecting => some (.leaving (some ⟨clock, 0, true⟩), conns, locked, 1)
  | .leaving (some conn) => some (.holding clock conn, conns, false, 0)
  | .leaving none => some (.idle, conns, false, 0)
  | .holding _ conn =>
    let conn := { conn with request := conn.request + 1 }
    if pool.discards clock conn then some (.idle, conns, locked, -1)
    else some (.returning conn, conns, locked, 0)
  | .returning conn => if locked then none else some (.pushing conn, conns, true, 0)
  | .pushing conn => some (.pushed, conns ++ [conn], locked, 0)
  | .pushed => some (.idle, conns, false, 0)

variable {W : Type} [DecidableEq W]

/-- A connection may fail to be made, and may be closed while it is held. -/
inductive Step (pool : HttpConnectionPool) (s : State W) : Act W → State W → Prop
  | tick {time : UInt64} : s.clock ≤ time → Step pool s (.tick time) { s with clock := time }
  | user {w : W} {user : User} {conns : List HttpConnection} {locked : Bool} {change : ℤ} :
    (s.users w).next pool s.clock s.conns s.locked = some (user, conns, locked, change) →
    Step pool s (.step w)
      ⟨conns, s.total + change, locked, s.clock, Function.update s.users w user⟩
  | fail {w : W} : s.users w = .connecting →
    Step pool s (.fail w) { s with users := Function.update s.users w (.leaving none) }
  | disconnect {w : W} {since : UInt64} {conn : HttpConnection} :
    s.users w = .holding since conn →
    Step pool s (.disconnect w) { s with
      users := Function.update s.users w (.holding since { conn with connected := false }) }

def initial (s : State W) : Prop :=
  s.conns = [] ∧ s.total = 0 ∧ s.locked = false ∧ ∀ w, s.users w = .idle

/-- The destructor of the guard does not unlock the mutex that another user has locked. -/
def Unshared (s : State W) : Act W → Prop
  | .step w => (∃ ptr, s.users w = .leaving ptr) → s.locked = false
  | _ => True

/-- Moreover no call of `getConnection` begins, and no time passes, during another one. -/
def Orderly (s : State W) : Act W → Prop
  | .tick _ => ∀ v, (s.users v).inCall = false
  | .step w => (s.users w = .idle → ∀ v, (s.users v).inCall = false) ∧ Unshared s (.step w)
  | _ => True

variable [Fintype W]

def State.live (s : State W) : ℕ := s.conns.length + ∑ w, (s.users w).carried

/-- No user has been handed a connection that was older, or had served more requests, than
the limits allow, and there are not too many connections. -/
def Within (max_size max_alive_time max_request : UInt32) (s : State W) : Prop :=
  (∀ w since conn, s.users w = .holding since conn →
    since.toNat ≤ conn.createTime.toNat + max_alive_time.toNat ∧
      conn.request < max_request.toNat) ∧
  s.live ≤ max_size.toNat

end HttpConnectionPool
end JKYi.Http
