import JKYi.Db.MySQL
import JKYi.Foundation.Interleaving

/-!
# The objects of MySQLManager

Where each `MySQL` that `get` creates is: in the list of its name, with a caller, or deleted. A
connection leaves its list before it is checked, and when the check fails `get` returns the null
pointer and neither puts it back nor deletes it.
-/

namespace JKYi.Db

open List

/-- The `id`th `MySQL` that has been created. Its deleter has `name` bound. -/
structure Conn where
  id : ℕ
  name : String
  mysql : MySQL

/-- The condition of `checkConnection`. The difference of the times is converted to `int`. -/
def Conn.unused (now : UInt64) (sec : ℤ) (m : Conn) : Bool :=
  sec ≤ ((now - m.mysql.lastUsedTime).toBitVec.setWidth 32).toInt

/-- What `get` makes of a connection from a list. -/
def MySQL.check (out : Surroundings) (rt : MySQL) : Option MySQL :=
  if !rt.isNeedCheck out.now then some { rt with lastUsedTime := out.now }
  else match rt.ping out.alive with
    | (true, rt) => some { rt with lastUsedTime := out.now }
    | (false, rt) => match rt.connect (out.fresh.map Session.connected) with
      | (true, rt) => some { rt with lastUsedTime := out.now }
      | (false, _) => none

/-- The lists of `m_conns` in one, what callers and their transactions hold, what is deleted, how
many objects there have been, and for each `push_back` of `freeMySQL` the length of the list after
it and the pool size of the connection. -/
structure Objects where
  conns : List Conn := []
  held : List Conn := []
  deleted : List ℕ := []
  created : ℕ := 0
  pushed : List (ℕ × ℤ) := []

namespace Objects

/-- `m_conns[name]`. -/
def listed (s : Objects) (name : String) : List Conn := s.conns.filter (·.name = name)

/-- `pool` is the parameter in the configuration or `m_dbDefines`, if the name is in one. -/
def get (s : Objects) (name : String) (pool : Option ℤ) (out : Surroundings) :
    Option Conn × Objects :=
  match s.conns.find? (·.name = name) with
  | some rt =>
    let s := { s with conns := s.conns.eraseP (·.name = name) }
    match rt.mysql.check out with
    | some mysql => (some { rt with mysql := mysql }, s)
    | none => (none, s)
  | none => match pool, out.fresh with
    | none, _ => (none, s)
    | some pool, some answers =>
      let mysql := { MySQL.connectNew pool (.connected answers) with lastUsedTime := out.now }
      (some ⟨s.created, name, mysql⟩, { s with created := s.created + 1 })
    | some _, none =>
      (none, { s with created := s.created + 1, deleted := s.created :: s.deleted })

def freeMySQL (s : Objects) (m : Conn) : Objects :=
  let size := (s.listed m.name).length
  if size < (m.mysql.poolSize % 2 ^ 64).toNat then
    { s with conns := s.conns ++ [m], pushed := (size + 1, m.mysql.poolSize) :: s.pushed }
  else { s with deleted := m.id :: s.deleted }

def hold (s : Objects) (m : Conn) : Objects := { s with held := m :: s.held }

def openTransaction (s : Objects) (name : String) (pool : Option ℤ) (autoCommit : Bool)
    (out : Surroundings) : Objects :=
  match s.get name pool out with
  | (none, s) => s
  | (some conn, s) => match MySQLTransaction.create conn.mysql autoCommit with
    | .inl mysql => s.freeMySQL { conn with mysql := mysql }
    | .inr t => s.hold { conn with mysql := t.mysql }

/-- The deleter of a pointer. -/
def release (s : Objects) (id : ℕ) : Objects :=
  match s.held.find? (·.id = id) with
  | some m => freeMySQL { s with held := s.held.eraseP (·.id = id) } m
  | none => s

def checkConnection (s : Objects) (now : UInt64) (sec : ℤ) : Objects :=
  { s with
    conns := s.conns.filter (!·.unused now sec)
    deleted := (s.conns.filter (Conn.unused now sec)).map Conn.id ++ s.deleted }

/-- What callers do. The statements, pings and connects of one that holds an object, and the end of
its transaction, leave it as `mysql`. -/
inductive Act where
  | get (name : String) (pool : Option ℤ) (out : Surroundings)
  | openTransaction (name : String) (pool : Option ℤ) (autoCommit : Bool) (out : Surroundings)
  | use (id : ℕ) (mysql : MySQL)
  | release (id : ℕ)
  | checkConnection (now : UInt64) (sec : ℤ)

def step (s : Objects) : Act → Objects
  | .get name pool out => match s.get name pool out with
    | (none, s) => s
    | (some conn, s) => s.hold conn
  | .openTransaction name pool autoCommit out => s.openTransaction name pool autoCommit out
  | .use id mysql =>
    { s with held := s.held.map fun m => if m.id = id then { m with mysql := mysql } else m }
  | .release id => s.release id
  | .checkConnection now sec => s.checkConnection now sec

/-- Each object is in exactly one place (`inHand` are those in a call's variables) and no list has
grown beyond the pool size of the connection put into it. -/
def Kept (inHand : List ℕ) (s : Objects) : Prop :=
  (inHand ++ (s.conns.map Conn.id ++ s.held.map Conn.id ++ s.deleted)).Perm (range s.created) ∧
    ∀ p ∈ s.pushed, (p.1 : ℤ) ≤ p.2

/-- A connection that `get` takes from the list and that has to be checked answers the ping or can
be connected. -/
def Answers (s : Objects) (name : String) (out : Surroundings) : Prop :=
  ∀ rt, s.conns.find? (·.name = name) = some rt → rt.mysql.isNeedCheck out.now = true →
    out.alive = true ∨ out.fresh.isSome = true

/-- A connection that `freeMySQL` puts into the list has no negative pool size. -/
def Returns (s : Objects) (m : Conn) : Prop :=
  (s.listed m.name).length < (m.mysql.poolSize % 2 ^ 64).toNat → 0 ≤ m.mysql.poolSize

def Fine (s : Objects) : Act → Prop
  | .get name _ out => s.Answers name out
  | .openTransaction name pool autoCommit out => s.Answers name out ∧
      ∀ conn, (s.get name pool out).1 = some conn → ∀ mysql,
        MySQLTransaction.create conn.mysql autoCommit = .inl mysql →
          (s.get name pool out).2.Returns { conn with mysql := mysql }
  | .release id => ∀ m, s.held.find? (·.id = id) = some m → s.Returns m
  | .use _ _ | .checkConnection _ _ => True

variable {s : Objects} {name : String} {pool : Option ℤ} {out : Surroundings} {m : Conn}

theorem check_eq_none_iff {rt : MySQL} : rt.check out = none ↔
    ¬ (rt.isNeedCheck out.now = true → out.alive = true ∨ out.fresh.isSome = true) := by
  cases hneed : rt.isNeedCheck out.now <;> cases halive : out.alive <;>
    cases hfresh : out.fresh <;>
    simp [MySQL.check, MySQL.ping, MySQL.connect, hneed, halive, hfresh]

theorem perm_of_find? {p : Conn → Bool} {l : List Conn} (h : l.find? p = some m) :
    (l.map Conn.id).Perm (m.id :: (l.eraseP p).map Conn.id) := by
  obtain ⟨hm, as, bs, rfl, has⟩ := find?_eq_some_iff_append.1 h
  rw [eraseP_append_right _ (by simpa using has), eraseP_cons_of_pos hm]
  simp

theorem Kept.get_iff (h : Kept [] s) (name : String) (pool : Option ℤ) (out : Surroundings) :
    Kept ((s.get name pool out).1.toList.map Conn.id) (s.get name pool out).2 ↔
      s.Answers name out := by
  obtain ⟨hplaces, hpushed⟩ := h
  unfold Objects.get Answers
  cases hfind : s.conns.find? (·.name = name) with
  | some rt =>
    have hperm := (((perm_of_find? hfind).append_right _).append_right _).symm.trans hplaces
    simp only [Option.some_inj, forall_eq']
    split
    next mysql hcheck =>
      refine iff_of_true ⟨hperm, hpushed⟩ ?_
      by_contra hnone
      simp [check_eq_none_iff.2 hnone] at hcheck
    next hcheck =>
      refine iff_of_false (fun hkept => ?_) (check_eq_none_iff.1 hcheck)
      have hlength := (hkept.1.trans hperm.symm).length_eq
      simp at hlength
  | none =>
    have hnew := (hplaces.cons s.created).trans (perm_append_singleton ..).symm
    rw [← range_succ] at hnew
    refine iff_of_true ?_ nofun
    dsimp only
    split
    · exact ⟨hplaces, hpushed⟩
    · exact ⟨hnew, hpushed⟩
    · exact ⟨perm_middle.trans hnew, hpushed⟩

theorem kept_freeMySQL : Kept [] (s.freeMySQL m) ↔ Kept [m.id] s ∧ s.Returns m := by
  unfold freeMySQL Returns
  dsimp only
  split_ifs with hsize
  · have hperm : ((s.conns ++ [m]).map Conn.id ++ s.held.map Conn.id ++ s.deleted).Perm
        (m.id :: (s.conns.map Conn.id ++ s.held.map Conn.id ++ s.deleted)) := by
      rw [map_append]
      exact ((perm_append_singleton ..).append_right _).append_right _
    have hle : ((s.listed m.name).length + 1 : ℕ) ≤ m.mysql.poolSize ↔ 0 ≤ m.mysql.poolSize := by
      omega
    rw [forall_prop_of_true hsize, ← hle]
    refine (and_congr (hperm.congr_left _) forall_mem_cons).trans ?_
    rw [Kept, and_assoc]
    exact and_congr_right fun _ => and_comm
  · rw [and_iff_left (absurd · hsize)]
    exact and_congr_left fun _ => perm_middle.congr_left _

theorem kept_hold : Kept [] (s.hold m) ↔ Kept [m.id] s :=
  and_congr_left fun _ => (perm_middle.append_right s.deleted).congr_left _

theorem Kept.step_iff (h : Kept [] s) (a : Act) : Kept [] (s.step a) ↔ s.Fine a := by
  cases a with
  | get name pool out =>
    rw [Fine, ← h.get_iff name pool out, step]
    rcases s.get name pool out with ⟨_ | conn, s'⟩
    · rfl
    · exact kept_hold
  | openTransaction name pool autoCommit out =>
    rw [Fine, ← h.get_iff name pool out, step, openTransaction]
    rcases s.get name pool out with ⟨_ | conn, s'⟩
    · simp
    cases hcreate : MySQLTransaction.create conn.mysql autoCommit with
    | inl mysql => simp [hcreate, kept_freeMySQL]
    | inr t => simp [hcreate, kept_hold]
  | use id mysql =>
    refine iff_of_true ?_ trivial
    simpa [Kept, step, Function.comp_def, apply_ite] using h
  | release id =>
    rw [Fine, step, release]
    split
    next m hfind =>
      have hperm := ((perm_of_find? hfind).append_left (s.conns.map Conn.id)).append_right s.deleted
      have hkept : Kept [m.id] { s with held := s.held.eraseP (·.id = id) } :=
        ⟨(perm_middle.append_right _).symm.trans (hperm.symm.trans h.1), h.2⟩
      simp [hfind, kept_freeMySQL, hkept, Returns, listed]
    next hfind => simp [hfind, h]
  | checkConnection now sec =>
    refine iff_of_true ⟨.trans ?_ h.1, h.2⟩ trivial
    refine perm_iff_count.2 fun id => ?_
    have hsplit := ((filter_append_perm (Conn.unused now sec) s.conns).map Conn.id).count_eq id
    simp only [map_append, count_append] at hsplit
    simp only [step, checkConnection, nil_append, count_append]
    omega

abbrev Run : List (Objects × Act) → Objects → Prop :=
  Trace (· = {}) fun s a t => t = s.step a

/-- Each object is at all times in the list of its name, with one caller or deleted once, and no
list grows beyond the pool size of the connection returned, exactly if every listed connection
that `get` has to check answers or can be connected and none with a negative pool size is
returned. -/
theorem objects_kept_iff {tr : List (Objects × Act)} (h : Run tr s) :
    (∀ t ∈ s :: tr.map Prod.fst, Kept [] t) ↔ ∀ p ∈ tr, p.1.Fine p.2 := by
  refine h.all_good_iff ?_ fun _ s a t _ hkept ht => ?_
  · rintro _ rfl
    exact ⟨.refl _, nofun⟩
  · rw [ht]
    exact hkept.step_iff a

/-- A connection is created, returned, and taken from the list when it has to be checked and
answers. -/
theorem objects_kept_iff_alive : ∃ tr s, Run tr s ∧ s.held.map Conn.id = [0] ∧ s.created = 1 ∧
    ∀ t ∈ s :: tr.map Prod.fst, Kept [] t := by
  have h : Run _ _ := .next (a := .get "a" (some 1) ⟨0, true, some 0⟩) (.start rfl) rfl
  have h := h.next (a := .release 0) rfl
  have h := h.next (a := .get "a" (some 1) ⟨9, true, none⟩) rfl
  refine ⟨_, _, h, by decide, by decide, (objects_kept_iff h).2 ?_⟩
  simp only [forall_mem_cons]
  refine ⟨fun _ _ _ => .inl rfl, ?_, nofun, nofun⟩
  rintro _ ⟨⟩ -
  exact Int.one_nonneg

/-- The same, but it does not answer and cannot be connected: it is nowhere. -/
theorem connection_lost : ∃ tr s, Run tr s ∧ s.conns.map Conn.id = [] ∧ s.held.map Conn.id = [] ∧
    s.deleted = [] ∧ s.created = 1 ∧ ¬ Kept [] s := by
  have h : Run _ _ := .next (a := .get "a" (some 1) ⟨0, true, some 0⟩) (.start rfl) rfl
  have h := h.next (a := .release 0) rfl
  have h := h.next (a := .get "a" (some 1) ⟨9, false, none⟩) rfl
  refine ⟨_, _, h, by decide, by decide, by decide, by decide, fun hkept => ?_⟩
  exact absurd hkept.1.length_eq (by decide)

end Objects
end JKYi.Db
