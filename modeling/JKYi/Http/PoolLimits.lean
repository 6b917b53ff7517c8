import JKYi.Http.ConnectionPool

/-!
# What the limits of a connection pool achieve

A connection is handed out again as long as it is not older than the number given as
`max_request` and has been released fewer times than the number given as `max_alive_time`. The
number of connections is limited by the number of users only.
-/

namespace JKYi.Http.HttpConnectionPool

open List Function

variable {W : Type} [DecidableEq W] {pool : HttpConnectionPool} {s s' : State W} {a : Act W}
  {clock now : UInt64} {conn : HttpConnection} {conns conns' : List HttpConnection}
  {locked locked' : Bool} {user user' : User} {change : ℤ}

theorem le_of_not_expired
    (h : pool.expired now conn = false) :
    now.toNat ≤ conn.createTime.toNat + pool.maxAliveTime.toNat := by
  have hle := of_decide_eq_false h
  rw [UInt64.not_lt, UInt64.le_iff_toNat_le, UInt64.toNat_add, UInt32.toNat_toUInt64] at hle
  exact hle.trans (Nat.mod_le _ _)

def Served (pool : HttpConnectionPool) (conn : HttpConnection) : Prop :=
  1 ≤ conn.request ∧ conn.request < pool.maxRequest.toNat

/-- The connection is new, or it has been released before and is not too old at `time`. -/
def Handed (pool : HttpConnectionPool) (time : UInt64) (conn : HttpConnection) : Prop :=
  (time = conn.createTime ∧ conn.request = 0) ∨
    (Served pool conn ∧ time.toNat ≤ conn.createTime.toNat + pool.maxAliveTime.toNat)

/-- During a call the clock shows the time that the call has read. -/
def UserOk (pool : HttpConnectionPool) (clock : UInt64) : User → Prop
  | .idle | .connecting | .pushed => True
  | .called now | .looping now _ => now = clock
  | .front now _ conn => now = clock ∧ Served pool conn
  | .looped ptr _ | .chosen ptr _ | .leaving ptr => ∀ conn ∈ ptr, Handed pool clock conn
  | .holding since conn => Handed pool since conn
  | .returning conn | .pushing conn => Served pool conn

theorem UserOk.tick {time : UInt64} (h : UserOk pool clock user) (hcall : user.inCall = false) :
    UserOk pool time user := by
  cases user <;> first | exact h | cases hcall

theorem served_of_kept (h : pool.discards now conn ≠ true) (hpos : 1 ≤ conn.request) :
    Served pool conn := by
  simp only [discards, Bool.not_eq_true, Bool.or_eq_false_iff, decide_eq_false_iff_not,
    not_le] at h
  exact ⟨hpos, h.2⟩

theorem UserOk.next (h : UserOk pool clock user) (hconns : ∀ conn ∈ conns, Served pool conn)
    (hnext : user.next pool clock conns locked = some (user', conns', locked', change)) :
    UserOk pool clock user' ∧ ∀ conn ∈ conns', Served pool conn := by
  revert hnext h hconns
  fun_cases User.next pool clock conns locked user <;> intro h hconns hnext <;> cases hnext
  case case5 => exact ⟨⟨h, hconns _ mem_cons_self⟩, hconns⟩
  case case7 => exact ⟨h.1, fun c hc => hconns c (mem_cons_of_mem _ hc)⟩
  case case8 hvalid =>
    simp only [Bool.or_eq_true, not_or, Bool.not_eq_true] at hvalid
    refine ⟨?_, fun c hc => hconns c (mem_cons_of_mem _ hc)⟩
    rintro _ ⟨⟩
    exact .inr ⟨h.2, h.1 ▸ le_of_not_expired hvalid.2⟩
  case case12 =>
    refine ⟨?_, hconns⟩
    rintro _ ⟨⟩
    exact .inl ⟨rfl, rfl⟩
  case case13 => exact ⟨h _ rfl, hconns⟩
  case case16 hkeep => exact ⟨served_of_kept hkeep (Nat.succ_pos _), hconns⟩
  case case19 =>
    refine ⟨trivial, forall_mem_append.mpr ⟨hconns, forall_mem_singleton.mpr h⟩⟩
  all_goals
    first
    | exact ⟨h, hconns⟩
    | exact ⟨trivial, hconns⟩
    | exact ⟨rfl, hconns⟩
    | exact ⟨nofun, hconns⟩

/-- Who is in a section has the mutex and is alone there, and so is who is in `getConnection`. -/
structure Inv (pool : HttpConnectionPool) (s : State W) : Prop where
  pooled : ∀ conn ∈ s.conns, Served pool conn
  users : ∀ w, UserOk pool s.clock (s.users w)
  calls : ∀ v w, (s.users v).inCall = true → (s.users w).inCall = true → v = w
  locked : ∀ w, (s.users w).inSection = true → s.locked = true
  sections : ∀ v w, (s.users v).inSection = true → (s.users w).inSection = true → v = w

theorem User.next_inCall (h : user.next pool clock conns locked =
    some (user', conns', locked', change)) (hcall : user'.inCall = true) :
    user.inCall = true ∨ user = .idle := by
  revert h
  fun_cases User.next pool clock conns locked user <;> intro h <;> cases h <;>
    simp_all [User.inCall]

/-- A user comes into a section when the mutex is free, and leaves it when it unlocks. -/
theorem User.next_inSection (h : user.next pool clock conns locked =
    some (user', conns', locked', change)) (hfree : (∃ ptr, user = .leaving ptr) → locked = false)
    (hheld : user.inSection = true → locked = true) :
    (user'.inSection = true → locked' = true ∧ (user.inSection = true ∨ locked = false)) ∧
    (user'.inSection = false → locked' = locked ∨ user.inSection = true) := by
  revert h
  fun_cases User.next pool clock conns locked user <;> intro h <;> cases h <;>
    simp_all [User.inSection]

theorem Inv.step (h : Inv pool s) (ha : Orderly s a) (hs : Step pool s a s') : Inv pool s' := by
  obtain ⟨hpooled, husers, hcalls, hlocked, hsections⟩ := h
  cases hs with
  | tick hle => exact ⟨hpooled, fun w => (husers w).tick (ha w), hcalls, hlocked, hsections⟩
  | fail hw =>
    refine ⟨hpooled, ?_, ?_, ?_, ?_⟩ <;> simp only [update_apply] <;>
      grind [UserOk, User.inCall, User.inSection]
  | disconnect hw =>
    refine ⟨hpooled, ?_, ?_, ?_, ?_⟩ <;> simp only [update_apply] <;>
      grind [UserOk, User.inCall, User.inSection, Handed, Served]
  | @user w user conns locked change hnext =>
    obtain ⟨hok, hconns⟩ := (husers w).next hpooled hnext
    have hcall := User.next_inCall hnext
    obtain ⟨hin, hout⟩ := User.next_inSection hnext ha.2 (hlocked w)
    refine ⟨hconns, ?_, ?_, ?_, ?_⟩ <;> simp only [update_apply]
    · intro v
      split <;> simp_all
    · grind [Orderly]
    · grind
    · grind

section

variable [Fintype W]

/-- The connections that a user has, or one that it may still make. -/
def User.slots : User → ℕ
  | .looped none invalid | .chosen none invalid => max 1 invalid.length
  | .connecting => 1
  | user => user.carried

theorem User.carried_le_slots (user : User) : user.carried ≤ user.slots := by
  fun_cases User.slots <;> simp [User.carried]

theorem User.slots_le_one (h : user.inCall = false) : user.slots ≤ 1 := by
  cases user <;> simp_all [User.inCall, User.slots, User.carried]

/-- Who finds the list empty may make a connection. -/
theorem User.next_slots (h : user.next pool clock conns locked =
    some (user', conns', locked', change)) :
    conns'.length + user'.slots ≤ conns.length + user.slots ∨
      conns' = [] ∧ user'.slots = 1 ∧ user.inCall = true := by
  revert h
  fun_cases User.next pool clock conns locked user <;> intro h <;> cases h
  case case4 invalid =>
    cases invalid with
    | nil => exact .inr ⟨rfl, rfl, rfl⟩
    | cons conn invalid => exact .inl (by simp [User.slots, User.carried])
  case case9 ptr invalid => cases ptr <;> exact .inl le_rfl
  all_goals
    left
    simp [User.slots, User.carried]
  all_goals omega

/-- Connections that users have or may make. -/
def State.slots (s : State W) : ℕ := s.conns.length + ∑ w, (s.users w).slots

theorem slots_step (h : Inv pool s) (hs : Step pool s a s')
    (hle : s.slots ≤ Fintype.card W) : s'.slots ≤ Fintype.card W := by
  have hsum (w : W) (user : User) := sum_update_entry (fun _ => User.slots) s.users w user
  have hmove (w : W) (user : User) (hless : user.slots ≤ (s.users w).slots) :
      s.conns.length + ∑ v, (update s.users w user v).slots ≤ Fintype.card W := by
    have := hsum w user
    unfold State.slots at hle
    omega
  cases hs with
  | tick => exact hle
  | fail hw => exact hmove _ _ (hw ▸ Nat.zero_le 1)
  | disconnect hw => exact hmove _ _ (hw ▸ le_refl 1)
  | @user w user conns locked change hnext =>
    unfold State.slots at hle ⊢
    dsimp only
    rcases User.next_slots hnext with hless | ⟨rfl, hone, hcall⟩
    · have := hsum w user
      omega
    · -- all the others are outside of `getConnection`
      rw [length_nil, Nat.zero_add]
      refine (Finset.sum_le_card_nsmul _ _ 1 fun v _ => ?_).trans (by simp)
      by_cases hv : v = w
      · rw [hv, update_self, hone]
      · rw [update_of_ne hv]
        refine User.slots_le_one (Bool.eq_false_iff.mpr fun hin => hv (h.calls v w hin hcall))

omit [DecidableEq W] in
theorem live_le_slots (s : State W) : s.live ≤ s.slots :=
  Nat.add_le_add_left (Finset.sum_le_sum fun _ _ => User.carried_le_slots _) _

theorem inv_of_reachable (hs : Reachable initial (Step pool) Orderly s) :
    Inv pool s ∧ s.slots ≤ Fintype.card W := by
  refine hs.invariant (P := fun s => Inv pool s ∧ s.slots ≤ Fintype.card W) ?_
    fun s a s' h ha hs => ⟨h.1.step ha hs, slots_step h.1 hs h.2⟩
  rintro s ⟨hconns, -, hlocked, hidle⟩
  refine ⟨⟨by simp [hconns], ?_, ?_, ?_, ?_⟩, ?_⟩ <;>
    simp [hconns, hidle, State.slots, UserOk, User.inCall, User.inSection, User.slots,
      User.carried]

end

/-! Runs of one user while nobody else is in a call. -/

section

variable {g : W → User} {w : W} {time : UInt64}

def Runs (pool : HttpConnectionPool) (g : W → User) (w : W) (conns : List HttpConnection)
    (locked : Bool) (clock : UInt64) (user : User) : Prop :=
  (∀ v, (g v).inCall = false) ∧
    ∃ total, Reachable initial (Step pool) Orderly ⟨conns, total, locked, clock, update g w user⟩

theorem Runs.next (h : Runs pool g w conns locked clock user)
    (hnext : user.next pool clock conns locked = some (user', conns', locked', change))
    (hfree : (∃ ptr, user = .leaving ptr) → locked = false := by simp) :
    Runs pool g w conns' locked' clock user' := by
  obtain ⟨hg, total, hs⟩ := h
  refine ⟨hg, total + change, ?_⟩
  have hstep : Step pool ⟨conns, total, locked, clock, update g w user⟩ (.step w) _ :=
    .user ((congrArg _ (update_self ..)).trans hnext)
  rw [update_idem] at hstep
  refine hs.next (a := .step w) ⟨fun hidle v => ?_, ?_⟩ hstep
  · by_cases hv : v = w
    · rw [hv, hidle]
      rfl
    · exact (congrArg _ (update_of_ne hv ..)).trans (hg v)
  · rintro ⟨ptr, hptr⟩
    exact hfree ⟨ptr, (update_self ..).symm.trans hptr⟩

theorem Runs.tick (h : Runs pool g w conns locked clock user) (hout : user.inCall = false)
    (hle : clock ≤ time) : Runs pool g w conns locked time user := by
  obtain ⟨hg, total, hs⟩ := h
  refine ⟨hg, total, hs.next (a := .tick time) (fun v => ?_) (.tick hle)⟩
  by_cases hv : v = w
  · exact hv ▸ (congrArg _ (update_self ..)).trans hout
  · exact (congrArg _ (update_of_ne hv ..)).trans (hg v)

theorem runs_initial (w : W) : Runs pool (fun _ => .idle) w [] false 0 .idle :=
  ⟨fun _ => rfl, 0, .start ⟨rfl, rfl, rfl, fun v => by simp⟩⟩

theorem Runs.connect (h : Runs pool g w [] false clock .idle) :
    Runs pool g w [] false clock (.holding clock ⟨clock, 0, true⟩) :=
  (((((((h.next rfl).next rfl).next rfl).next rfl).next rfl).next rfl).next rfl)

theorem Runs.reuse (h : Runs pool g w [conn] false clock .idle) (hconn : conn.connected = true)
    (hvalid : pool.expired clock conn = false) :
    Runs pool g w [] false clock (.holding clock conn) := by
  have hfront := ((h.next rfl).next rfl).next rfl
  have hlooped := hfront.next (show _ = some (.looped (some conn) [], [], true, 0) by
    simp [User.next, hconn, hvalid])
  exact ((hlooped.next rfl).next rfl).next rfl

theorem Runs.release {since : UInt64} (h : Runs pool g w [] false clock (.holding since conn))
    (hkeep : pool.discards clock { conn with request := conn.request + 1 } = false) :
    Runs pool g w [{ conn with request := conn.request + 1 }] false clock .idle := by
  have hkept := h.next (show _ = some
    (.returning { conn with request := conn.request + 1 }, [], false, 0) by simp [User.next, hkeep])
  exact ((hkept.next rfl).next rfl).next rfl

theorem not_expired_zero (request : ℕ) (connected : Bool) :
    pool.expired 0 ⟨0, request, connected⟩ = false := by
  simp [expired]

variable (pool) in
theorem runs_requests (w : W) (n : ℕ) (hn : n < max 1 pool.maxRequest.toNat) :
    Runs pool (fun _ => .idle) w [] false 0 (.holding 0 ⟨0, n, true⟩) := by
  induction n with
  | zero => exact (runs_initial w).connect
  | succ n ih =>
    have hkeep : pool.discards 0 ⟨0, n + 1, true⟩ = false := by
      simp only [discards, not_expired_zero, Bool.not_true, Bool.or_false, Bool.false_or,
        decide_eq_false_iff_not]
      omega
    exact ((ih (by omega)).release hkeep).reuse rfl (not_expired_zero _ _)

variable (pool) in
theorem runs_old (w : W) (hreuse : 1 < pool.maxRequest.toNat) :
    Runs pool (fun _ => .idle) w [] false pool.maxAliveTime.toUInt64
      (.holding pool.maxAliveTime.toUInt64 ⟨0, 1, true⟩) := by
  have hkeep : pool.discards 0 ⟨0, 0 + 1, true⟩ = false := by
    simp only [discards, not_expired_zero, Bool.not_true, Bool.or_false, Bool.false_or,
      decide_eq_false_iff_not]
    omega
  have hidle := (runs_requests pool w 0 (by omega)).release hkeep
  refine (hidle.tick rfl UInt64.zero_le).reuse rfl ?_
  simp [expired]

variable (pool) in
/-- Some users hold a connection each. -/
theorem exists_holding (T : Finset W) : ∃ total, Reachable initial (Step pool) Orderly
    ⟨[], total, false, 0, fun w => if w ∈ T then .holding 0 ⟨0, 0, true⟩ else .idle⟩ := by
  induction T using Finset.induction_on with
  | empty => exact ⟨0, .start ⟨rfl, rfl, rfl, fun w => by simp⟩⟩
  | insert w T hw ih =>
    set g : W → User := fun w => if w ∈ T then .holding 0 ⟨0, 0, true⟩ else .idle with hg
    have hidle : update g w .idle = g := update_eq_self_iff.mpr (by simp [hg, hw])
    have hrun : Runs pool g w [] false 0 .idle :=
      ⟨fun v => by simp only [hg]; split <;> rfl, by rwa [hidle]⟩
    obtain ⟨-, total, hs⟩ := hrun.connect
    refine ⟨total, ?_⟩
    convert hs using 2
    ext v
    by_cases hv : v = w <;> simp [hv, hg]

end

/-- The limits, as given to `create`, with which no connection can be handed out too late or
too often, and no more users than connections are allowed. -/
def LimitsHold (users : ℕ) (max_size max_alive_time max_request : UInt32) : Prop :=
  users ≤ max_size.toNat ∧ 0 < max_request.toNat ∧
    (max_alive_time.toNat ≤ 1 ∨ max_alive_time = max_request)

variable [Fintype W] {max_size max_alive_time max_request : UInt32}

theorem within_of_limitsHold
    (h : LimitsHold (Fintype.card W) max_size max_alive_time max_request)
    (hs : Reachable initial (Step (create max_size max_alive_time max_request)) Orderly s) :
    Within max_size max_alive_time max_request s := by
  obtain ⟨hinv, hslots⟩ := inv_of_reachable hs
  obtain ⟨hsize, hpos, hlimits⟩ := h
  refine ⟨fun w since conn hw => ?_, (live_le_slots s).trans (hslots.trans hsize)⟩
  have huser := hinv.users w
  rw [hw] at huser
  rcases huser with ⟨rfl, hzero⟩ | ⟨⟨hge, hlt⟩, hold⟩
  · exact ⟨Nat.le_add_right _ _, by omega⟩
  · change conn.request < max_alive_time.toNat at hlt
    change since.toNat ≤ conn.createTime.toNat + max_request.toNat at hold
    rcases hlimits with hshort | rfl
    · omega
    · exact ⟨hold, hlt⟩

theorem exists_not_within [Nonempty W]
    (h : ¬ LimitsHold (Fintype.card W) max_size max_alive_time max_request) :
    ∃ s : State W, Reachable initial (Step (create max_size max_alive_time max_request))
      Orderly s ∧ ¬ Within max_size max_alive_time max_request s := by
  obtain ⟨w⟩ := ‹Nonempty W›
  rcases Nat.lt_or_ge max_size.toNat (Fintype.card W) with hmore | hsize
  · -- every user holds a connection
    obtain ⟨total, hs⟩ := exists_holding (create max_size max_alive_time max_request)
      (Finset.univ : Finset W)
    refine ⟨_, hs, fun hwithin => absurd hwithin.2 (not_le.mpr ?_)⟩
    simpa [State.live, User.carried] using hmore
  simp only [LimitsHold, not_and, not_or] at h
  rcases Nat.lt_or_ge max_request.toNat (max 1 max_alive_time.toNat) with hfew | hmany
  · -- the connection is handed out once more than it may be
    obtain ⟨-, total, hs⟩ := runs_requests
      (create max_size max_alive_time max_request) w max_request.toNat hfew
    refine ⟨_, hs, fun hwithin => ?_⟩
    exact lt_irrefl _ (hwithin.1 w 0 ⟨0, max_request.toNat, true⟩ (by simp)).2
  · have hne := h hsize (by omega)
    have hdiff : max_alive_time.toNat ≠ max_request.toNat :=
      fun heq => hne.2 (UInt32.toNat_inj.mp heq)
    obtain ⟨-, total, hs⟩ := runs_old (create max_size max_alive_time max_request) w
      (by change 1 < max_alive_time.toNat; omega)
    refine ⟨_, hs, fun hwithin => ?_⟩
    have hage := (hwithin.1 w max_request.toUInt64 ⟨0, 1, true⟩ (by simp; rfl)).1
    change max_request.toUInt64.toNat ≤ (0 : UInt64).toNat + max_alive_time.toNat at hage
    rw [UInt32.toNat_toUInt64, UInt64.toNat_zero] at hage
    omega

/-- In all runs in which calls of `getConnection` are not disturbed the limits hold exactly for the
listed values and numbers of users; and the list is used by one user at a time. -/
theorem pool_within_limits_iff [Nonempty W] (max_size max_alive_time max_request : UInt32) :
    ((∀ s : State W, Reachable initial (Step (create max_size max_alive_time max_request))
      Orderly s → Within max_size max_alive_time max_request s) ↔
      LimitsHold (Fintype.card W) max_size max_alive_time max_request) ∧
    ∀ s : State W, Reachable initial (Step (create max_size max_alive_time max_request))
      Orderly s → ∀ v w, (s.users v).inSection = true → (s.users w).inSection = true → v = w := by
  refine ⟨⟨fun hall => ?_, fun h s => within_of_limitsHold h⟩,
    fun s hs => (inv_of_reachable hs).1.sections⟩
  by_contra h
  obtain ⟨s, hs, hbad⟩ := exists_not_within (W := W) h
  exact hbad (hall s hs)

theorem pool_within_limits_iff_equal :
    LimitsHold (Fintype.card (Fin 2)) 10 30 30 ∧ ∃ s : State (Fin 2),
      Reachable initial (Step (create 10 30 30)) Orderly s ∧
        s.users 0 = .holding 0 ⟨0, 3, true⟩ ∧ Within 10 30 30 s := by
  have h : LimitsHold (Fintype.card (Fin 2)) 10 30 30 := ⟨by decide, by decide, .inr rfl⟩
  obtain ⟨-, total, hs⟩ := runs_requests (create 10 30 30) (0 : Fin 2) 3 (by decide)
  exact ⟨h, _, hs, rfl, (pool_within_limits_iff 10 30 30).1.mpr h _ hs⟩

/-- A connection is handed out after five requests though five are allowed, and after thirty
seconds though five milliseconds are allowed; two connections exist though one is allowed; and a
connection gets too old between the reading of the clock and the lock. -/
theorem pool_exceeds_limits :
    (∃ s : State Unit, Reachable initial (Step (create 10 30000 5)) Orderly s ∧
      s.users () = .holding 0 ⟨0, 5, true⟩) ∧
    (∃ s : State Unit, Reachable initial (Step (create 10 5 30000)) Orderly s ∧
      s.users () = .holding 30000 ⟨0, 1, true⟩) ∧
    (∃ s : State (Fin 2), Reachable initial (Step (create 1 30000 5)) Orderly s ∧ s.live = 2) ∧
    ∃ s : State Unit, Reachable initial (Step (create 10 5 5)) (fun _ _ => True) s ∧
      s.users () = .holding 100 ⟨0, 1, true⟩ := by
  refine ⟨?_, ?_, ?_, ?_⟩
  · obtain ⟨-, total, hs⟩ := runs_requests (create 10 30000 5) () 5 (by decide)
    exact ⟨_, hs, rfl⟩
  · obtain ⟨-, total, hs⟩ := runs_old (create 10 5 30000) () (by decide)
    exact ⟨_, hs, rfl⟩
  · obtain ⟨total, hs⟩ := exists_holding (create 1 30000 5) (Finset.univ : Finset (Fin 2))
    exact ⟨_, hs, rfl⟩
  · have hkept := (runs_requests (create 10 5 5) () 0 (by decide)).release (by decide)
    obtain ⟨-, total, hs⟩ := hkept.next rfl
    have h := hs.mono (fun _ _ _ => trivial : ∀ _ _ _, True)
    have h := h.next (a := .tick 100) trivial (.tick UInt64.zero_le)
    have h := h.next (a := .step ()) trivial (.user rfl)
    have h := h.next (a := .step ()) trivial (.user rfl)
    have h := h.next (a := .step ()) trivial (.user rfl)
    have h := h.next (a := .step ()) trivial (.user rfl)
    have h := h.next (a := .step ()) trivial (.user rfl)
    exact ⟨_, h.next (a := .step ()) trivial (.user rfl), rfl⟩

end JKYi.Http.HttpConnectionPool
