import JKYi.Foundation.Interleaving

/-!
# The connections of RedisManager

`get` takes a connection from the list of the name it is asked for, and the pointer it returns puts
it into the list of the connection's own name. `init` sets that name for the asynchronous
connections only.
-/

namespace JKYi.Db

open Function List

/-- A `Redis` or a `RedisCluster`, the `number`th that `init` creates for the name `conf`. -/
structure SyncRedis where
  conf : String
  number : ℕ
  deriving DecidableEq

/-- `m_name`: nothing sets it. -/
def SyncRedis.getName (_ : SyncRedis) : String := ""

inductive IRedis where
  | sync (r : SyncRedis)
  | fox (conf : String) (number : ℕ)
  deriving DecidableEq

/-- The loop of `init` over `pool`. -/
def createPool (conf type : String) (pool : ℕ) : List IRedis :=
  if type = "redis" ∨ type = "redis_cluster" then (range pool).map fun n => .sync ⟨conf, n⟩
  else if type = "fox_redis" ∨ type = "fox_redis_cluster" then (range pool).map (.fox conf)
  else []

/-- `m_datas`, and the connections of the pointers that have not been released. -/
structure RedisManager where
  datas : String → List IRedis
  held : List SyncRedis

namespace RedisManager

/-- The entries of the configuration: name, type and pool. -/
def init (config : List (String × String × ℕ)) : RedisManager where
  datas name := (config.filter (·.1 = name)).flatMap fun c => createPool c.1 c.2.1 c.2.2
  held := []

/-- `alive`: the connection has been used in the last 30 seconds, or it answers the ping, or it
can be connected again. -/
def get (s : RedisManager) (name : String) (alive : Bool) : RedisManager :=
  match s.datas name with
  | [] => s
  | .fox conf n :: rest => { s with datas := update s.datas name (rest ++ [.fox conf n]) }
  | .sync r :: rest =>
    if alive then ⟨update s.datas name rest, r :: s.held⟩
    else { s with datas := update s.datas name (rest ++ [.sync r]) }

def freeRedis (s : RedisManager) (r : SyncRedis) : RedisManager :=
  ⟨update s.datas r.getName (s.datas r.getName ++ [.sync r]), s.held.erase r⟩

inductive Act where
  | get (name : String) (alive : Bool)
  | release (r : SyncRedis)

/-- Only a pointer that is held can be released. -/
def step (s : RedisManager) : Act → RedisManager
  | .get name alive => s.get name alive
  | .release r => if r ∈ s.held then s.freeRedis r else s

/-- What belongs to a name: its list, and what callers hold of it. -/
def owned (s : RedisManager) (name : String) : List IRedis :=
  s.datas name ++ (s.held.filter (·.conf = name)).map .sync

variable {config : List (String × String × ℕ)} {s : RedisManager} {r : SyncRedis} {name : String}

/-- Each connection is in the list of its name or held by one caller. -/
def Kept (config : List (String × String × ℕ)) (s : RedisManager) : Prop :=
  ∀ name, (s.owned name).Perm ((init config).datas name)

theorem conf_of_init (h : .sync r ∈ (init config).datas name) : r.conf = name := by
  simp only [init, createPool, mem_flatMap, mem_filter, decide_eq_true_eq] at h
  obtain ⟨c, ⟨-, rfl⟩, h⟩ := h
  split_ifs at h <;> grind

theorem Kept.get (h : Kept config s) (name : String) (alive : Bool) :
    Kept config (s.get name alive) := by
  intro n
  have hback : ∀ r rest, s.datas name = r :: rest →
      (owned { s with datas := update s.datas name (rest ++ [r]) } n).Perm (s.owned n) := by
    intro r rest hdatas
    apply Perm.append_right
    by_cases hn : n = name <;> simp [hn, hdatas]
  refine Perm.trans ?_ (h n)
  unfold RedisManager.get
  split
  · rfl
  · exact hback _ _ ‹_›
  next r rest hdatas =>
    split
    · have hr : r.conf = name := conf_of_init ((h name).subset (by simp [owned, hdatas]))
      by_cases hn : n = name
      · simp [owned, hn, hr, hdatas]
      · simp [owned, hn, hr, Ne.symm hn]
    · exact hback _ _ hdatas

theorem kept_freeRedis_iff (h : Kept config s) (hr : r ∈ s.held) :
    Kept config (s.freeRedis r) ↔ r.conf = "" := by
  have hheld (n : String) := ((perm_cons_erase hr).filter (·.conf = n)).map IRedis.sync
  constructor
  · intro hkept
    by_contra hconf
    have hlength := ((hkept r.conf).trans (h r.conf).symm).length_eq
    have hsame := (hheld r.conf).length_eq
    simp [owned, freeRedis, SyncRedis.getName, hconf] at hlength hsame
    omega
  · intro hconf n
    refine Perm.trans ?_ (h n)
    refine Perm.trans ?_ ((hheld n).symm.append_left _)
    by_cases hn : n = ""
    · simp [owned, freeRedis, SyncRedis.getName, hn, hconf]
    · simp [owned, freeRedis, SyncRedis.getName, hn, hconf, Ne.symm hn]

/-- The pointer released is one to a connection of the name that all connections have. -/
def Fine (s : RedisManager) : Act → Prop
  | .get _ _ => True
  | .release r => r ∈ s.held → r.conf = ""

theorem Kept.step_iff (h : Kept config s) (a : Act) : Kept config (s.step a) ↔ Fine s a := by
  cases a with
  | get name alive => exact iff_of_true (h.get name alive) trivial
  | release r =>
    by_cases hr : r ∈ s.held
    · simp [step, Fine, hr, kept_freeRedis_iff h]
    · simp [step, Fine, hr, h]

abbrev Run (config : List (String × String × ℕ)) :
    List (RedisManager × Act) → RedisManager → Prop :=
  Trace (· = init config) fun s a t => t = s.step a

/-- Each connection is at all times in the list of its name or with one caller, exactly if no
pointer to a connection of a name other than the empty one is released. -/
theorem kept_iff_fine {tr : List (RedisManager × Act)} (h : Run config tr s) :
    (∀ t ∈ s :: tr.map Prod.fst, Kept config t) ↔ ∀ p ∈ tr, Fine p.1 p.2 := by
  refine h.all_good_iff ?_ fun _ s a t _ hkept ht => ?_
  · rintro _ rfl name
    simp [owned, init]
  · rw [ht]
    exact hkept.step_iff a

/-- Two callers, one after the other, take the one connection of the empty name. -/
theorem kept_iff_fine_again : ∃ tr s, Run [("", "redis", 1)] tr s ∧ tr.length = 3 ∧
    s.held = [⟨"", 0⟩] ∧ ∀ t ∈ s :: tr.map Prod.fst, Kept [("", "redis", 1)] t := by
  have h : Run [("", "redis", 1)] _ _ := .next (a := .get "" true) (.start rfl) rfl
  have h := h.next (a := .release ⟨"", 0⟩) rfl
  have h := h.next (a := .get "" true) rfl
  exact ⟨_, _, h, rfl, by decide, (kept_iff_fine h).mpr (by simp [Fine])⟩

/-- One connection of the name a: after `get` and its release the list of a is empty. -/
theorem released_elsewhere : ∃ tr s, Run [("a", "redis", 1)] tr s ∧ s.held = [] ∧
    s.datas "a" = [] ∧ s.datas "" = [.sync ⟨"a", 0⟩] ∧ ¬ Kept [("a", "redis", 1)] s := by
  have h : Run [("a", "redis", 1)] _ _ := .next (a := .get "a" true) (.start rfl) rfl
  have h := h.next (a := .release ⟨"a", 0⟩) rfl
  refine ⟨_, _, h, by decide, by decide, by decide, fun hkept => ?_⟩
  exact absurd (hkept "a").length_eq (by decide)

end RedisManager
end JKYi.Db
