import Mathlib.Tactic

/-!
# Pooled connections and transactions

`MySQL`, `MySQLTransaction` and `MySQLManager`. The server is a session that knows whether a
transaction is open: `BEGIN` opens one, `COMMIT` and `ROLLBACK` close it, and a statement that
fails changes nothing.
-/

namespace JKYi.Db

open Function

inductive Statement
  | begin
  | commit
  | rollback
  | ordinary (sql : String)
  deriving DecidableEq, Repr

def Statement.closes : Statement → Bool
  | .commit | .rollback => true
  | .begin | .ordinary _ => false

def Statement.after (opened : Bool) : Statement → Bool
  | .begin => true
  | .commit | .rollback => false
  | .ordinary _ => opened

/-- One end of a connection to the server. `mysql_query` of the next statement returns
`answers 0`, the one after it `answers 1` and so on; `log` lists what has been issued. -/
structure Session where
  inTransaction : Bool
  answers : ℕ → ℤ
  log : List (Statement × ℤ)

/-- `mysql_real_connect`. -/
def Session.connected (answers : ℕ → ℤ) : Session := ⟨false, answers, []⟩

/-- `mysql_query`. -/
def Session.query (sql : Statement) (s : Session) : ℤ × Session :=
  (s.answers 0, {
    inTransaction := if s.answers 0 = 0 then sql.after s.inTransaction else s.inTransaction
    answers := fun i => s.answers (i + 1)
    log := s.log ++ [(sql, s.answers 0)] })

/-- A `MySQL` that has been connected, so that `m_mysql` is not null; `pool` is the entry of
`m_params`. -/
structure MySQL where
  pool : ℤ
  session : Session
  lastUsedTime : UInt64
  hasError : Bool
  poolSize : ℤ

namespace MySQL

def connectNew (pool : ℤ) (session : Session) : MySQL where
  pool := pool
  session := session
  lastUsedTime := 0
  hasError := false
  poolSize := pool

/-- `connect()` of an object that has a session; `fresh` is what `mysql_init` returns. -/
def connect (fresh : Option Session) (m : MySQL) : Bool × MySQL :=
  if m.hasError = false then (true, m)
  else match fresh with
    | none => (false, { m with hasError := true })
    | some session =>
      (true, { m with hasError := false, poolSize := m.pool, session := session })

/-- The difference of the times is taken in `uint64_t`. -/
def isNeedCheck (now : UInt64) (m : MySQL) : Bool := !(now - m.lastUsedTime < 5 && !m.hasError)

/-- `ping()`, where `mysql_ping` returns zero when it is `alive`. -/
def ping (alive : Bool) (m : MySQL) : Bool × MySQL :=
  if alive then (true, { m with hasError := false }) else (false, { m with hasError := true })

def execute (sql : Statement) (m : MySQL) : ℤ × MySQL :=
  let (r, session) := m.session.query sql
  (r, { m with session := session, hasError := r != 0 })

end MySQL

structure MySQLTransaction where
  mysql : MySQL
  autoCommit : Bool
  isFinished : Bool
  hasError : Bool

namespace MySQLTransaction

def execute (sql : Statement) (t : MySQLTransaction) : ℤ × MySQLTransaction :=
  if t.isFinished then (-1, t)
  else
    let (rt, mysql) := t.mysql.execute sql
    if rt ≠ 0 then (rt, { t with mysql := mysql, hasError := true })
    else (rt, { t with mysql := mysql })

def begin (t : MySQLTransaction) : Bool × MySQLTransaction :=
  let (rt, t) := t.execute .begin
  (rt == 0, t)

def commit (t : MySQLTransaction) : Bool × MySQLTransaction :=
  if t.isFinished || t.hasError then (!t.hasError, t)
  else
    let (rt, t) := t.execute .commit
    if rt = 0 then (true, { t with isFinished := true })
    else (false, { t with hasError := true })

def rollback (t : MySQLTransaction) : Bool × MySQLTransaction :=
  if t.isFinished then (true, t)
  else
    let (rt, t) := t.execute .rollback
    if rt = 0 then (true, { t with isFinished := true })
    else (false, { t with hasError := false })

/-- The connection that `~MySQLTransaction` leaves. -/
def destroy (t : MySQLTransaction) : MySQL :=
  if t.autoCommit then t.commit.2.mysql else t.rollback.2.mysql

/-- `Create`: a transaction, or the null pointer and the connection that the destructor has
left. -/
def create (mysql : MySQL) (autoCommit : Bool) : MySQL ⊕ MySQLTransaction :=
  let (ok, t) := begin ⟨mysql, autoCommit, false, false⟩
  if ok then .inr t else .inl t.destroy

/-- A call of a user of the transaction. -/
inductive Call
  | execute (sql : Statement)
  | commit
  | rollback
  deriving DecidableEq, Repr

def call (t : MySQLTransaction) : Call → MySQLTransaction
  | .execute sql => (t.execute sql).2
  | .commit => t.commit.2
  | .rollback => t.rollback.2

end MySQLTransaction

/-- `m_conns`, the parameter `pool` of the databases in the configuration or `m_dbDefines`, and
the transactions that users hold, with the name their connection came from. -/
structure MySQLManager where
  conns : String → List MySQL
  defines : String → Option ℤ
  transactions : ℕ → Option (String × MySQLTransaction)

/-- What a call of `get` meets: the time, the result of `mysql_ping` and the answers of the
session that `mysql_init` makes, if any. -/
structure Surroundings where
  now : UInt64
  alive : Bool
  fresh : Option (ℕ → ℤ)

namespace MySQLManager

def get (name : String) (out : Surroundings) (p : MySQLManager) : Option MySQL × MySQLManager :=
  let fresh := out.fresh.map Session.connected
  match p.conns name with
  | rt :: rest =>
    let p := { p with conns := update p.conns name rest }
    if !rt.isNeedCheck out.now then (some { rt with lastUsedTime := out.now }, p)
    else match rt.ping out.alive with
      | (true, rt) => (some { rt with lastUsedTime := out.now }, p)
      | (false, rt) => match rt.connect fresh with
        | (true, rt) => (some { rt with lastUsedTime := out.now }, p)
        | (false, _) => (none, p)
  | [] => match p.defines name, fresh with
    | some pool, some session =>
      (some { MySQL.connectNew pool session with lastUsedTime := out.now }, p)
    | _, _ => (none, p)

def freeMySQL (name : String) (m : MySQL) (p : MySQLManager) : MySQLManager :=
  if (p.conns name).length < (m.poolSize % 2 ^ 64).toNat then
    { p with conns := update p.conns name (p.conns name ++ [m]) }
  else p

def openTransaction (i : ℕ) (name : String) (autoCommit : Bool) (out : Surroundings)
    (p : MySQLManager) : MySQLManager :=
  match p.get name out with
  | (none, p) => p
  | (some conn, p) => match MySQLTransaction.create conn autoCommit with
    | .inl mysql => p.freeMySQL name mysql
    | .inr t => { p with transactions := update p.transactions i (some (name, t)) }

/-- What users do. -/
inductive Act
  | openTransaction (i : ℕ) (name : String) (autoCommit : Bool) (out : Surroundings)
  | call (i : ℕ) (c : MySQLTransaction.Call)
  | destroy (i : ℕ)

/-- Steps of the users. A user that opens a transaction holds none. -/
def step (p : MySQLManager) (a : Act) (p' : MySQLManager) : Prop :=
  match a with
  | .openTransaction i name autoCommit out =>
    p.transactions i = none ∧ p' = p.openTransaction i name autoCommit out
  | .call i c => ∃ name t, p.transactions i = some (name, t) ∧
      p' = { p with transactions := update p.transactions i (some (name, t.call c)) }
  | .destroy i => ∃ name t, p.transactions i = some (name, t) ∧
      p' = freeMySQL name t.destroy
        { p with transactions := update p.transactions i none }

def initial (p : MySQLManager) : Prop :=
  (∀ name, p.conns name = []) ∧ ∀ i, p.transactions i = none

end MySQLManager
end JKYi.Db
