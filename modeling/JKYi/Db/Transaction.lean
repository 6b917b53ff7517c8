import JKYi.Db.MySQL
import JKYi.Foundation.Interleaving

/-!
# Transactions that are left open

What a transaction has issued determines its flags and the state of the server. The
destructor closes the server's transaction unless it would commit after a failure: then
`commit()` does nothing and the connection goes back to the pool with the transaction open.
-/

namespace JKYi.Db

open List Function

def leavesOpen (es : List (Statement × ℤ)) : Bool :=
  es.foldl (fun opened e => if e.2 = 0 then e.1.after opened else opened) false

/-- Every `COMMIT` and `ROLLBACK` succeeds. -/
def ClosesOk (es : List (Statement × ℤ)) : Prop := ∀ e ∈ es, e.1.closes = true → e.2 = 0

def Fails (es : List (Statement × ℤ)) : Prop := ∃ e ∈ es, e.2 ≠ 0

section

variable {es : List (Statement × ℤ)} {sql : Statement} {rt : ℤ}

theorem leavesOpen_append :
    leavesOpen (es ++ [(sql, rt)]) =
      if rt = 0 then sql.after (leavesOpen es) else leavesOpen es := by
  simp [leavesOpen, foldl_append]

theorem fails_append : Fails (es ++ [(sql, rt)]) ↔ Fails es ∨ rt ≠ 0 := by
  simp [Fails, or_and_right, exists_or]

theorem closesOk_append :
    ClosesOk (es ++ [(sql, rt)]) ↔ ClosesOk es ∧ (sql.closes = true → rt = 0) := by
  simp [ClosesOk, or_imp, forall_and]

end

variable {mysql : MySQL} {autoCommit : Bool}

namespace MySQLTransaction

variable {t : MySQLTransaction} {sql : Statement} {past es : List (Statement × ℤ)}

theorem execute_of_finished (h : t.isFinished = true) : t.execute sql = (-1, t) := by
  simp [execute, h]

theorem execute_of_running (sql : Statement) (h : t.isFinished = false) : t.execute sql =
    (t.mysql.session.answers 0, { t with
      mysql := (t.mysql.execute sql).2
      hasError := t.hasError || t.mysql.session.answers 0 != 0 }) := by
  have hrt : (t.mysql.execute sql).1 = t.mysql.session.answers 0 := rfl
  simp only [execute, h, Bool.false_eq_true, if_false]
  rw [hrt]
  split_ifs with hzero <;> simp_all

structure Issued (past es : List (Statement × ℤ)) (t : MySQLTransaction) : Prop where
  log_eq : t.mysql.session.log = past ++ es
  inTransaction_eq : t.mysql.session.inTransaction = leavesOpen es
  hasError_iff : ClosesOk es → (t.hasError = true ↔ Fails es)
  closed_of_finished : t.isFinished = true → leavesOpen es = false

theorem Issued.session_eq (h : Issued past es t) (sql : Statement) {rt : ℤ}
    (hrt : t.mysql.session.answers 0 = rt) :
    (t.mysql.execute sql).2.session.log = past ++ (es ++ [(sql, rt)]) ∧
    (t.mysql.execute sql).2.session.inTransaction = leavesOpen (es ++ [(sql, rt)]) := by
  constructor
  · change t.mysql.session.log ++ [(sql, t.mysql.session.answers 0)] = _
    rw [hrt, h.log_eq, append_assoc]
  · change (if t.mysql.session.answers 0 = 0 then sql.after t.mysql.session.inTransaction
      else t.mysql.session.inTransaction) = _
    rw [hrt, h.inTransaction_eq, leavesOpen_append]

theorem Issued.execute (h : Issued past es t) :
    ∃ es', Issued past (es ++ es') (t.execute sql).2 := by
  cases hfin : t.isFinished with
  | true =>
    refine ⟨[], ?_⟩
    rw [execute_of_finished hfin, append_nil]
    exact h
  | false =>
    obtain ⟨hlog, hopen⟩ := h.session_eq sql rfl
    refine ⟨[(sql, t.mysql.session.answers 0)], ?_⟩
    rw [execute_of_running _ hfin]
    refine ⟨hlog, hopen, fun hok => ?_, fun hdone => ?_⟩
    · rw [fails_append, ← h.hasError_iff (closesOk_append.mp hok).1]
      simp
    · rw [hfin] at hdone
      cases hdone

theorem Issued.finish (h : Issued past es t) {hasError : Bool}
    (hsql : sql.closes = true) (hmysql : mysql = (t.mysql.execute sql).2)
    (herror : t.mysql.session.answers 0 = 0 → hasError = t.hasError) :
    Issued past (es ++ [(sql, t.mysql.session.answers 0)])
      { t with
        mysql := mysql
        isFinished := decide (t.mysql.session.answers 0 = 0)
        hasError := hasError } := by
  subst hmysql
  obtain ⟨hlog, hopen⟩ := h.session_eq sql rfl
  refine ⟨hlog, hopen, fun hok => ?_, fun hdone => ?_⟩
  · have hzero := (closesOk_append.mp hok).2 hsql
    rw [fails_append, ← h.hasError_iff (closesOk_append.mp hok).1]
    simp [herror hzero, hzero]
  · rw [leavesOpen_append, if_pos (of_decide_eq_true hdone)]
    cases sql <;> simp [Statement.closes, Statement.after] at hsql ⊢

theorem commit_of_running (hfin : t.isFinished = false) (herr : t.hasError = false) :
    t.commit.2 = { t with
      mysql := (t.mysql.execute .commit).2
      isFinished := decide (t.mysql.session.answers 0 = 0)
      hasError := t.mysql.session.answers 0 != 0 } := by
  simp only [commit, hfin, herr, Bool.or_self, Bool.false_eq_true, if_false,
    execute_of_running _ hfin]
  split_ifs with hzero <;> simp [hzero]

theorem rollback_of_running (hfin : t.isFinished = false) :
    t.rollback.2 = { t with
      mysql := (t.mysql.execute .rollback).2
      isFinished := decide (t.mysql.session.answers 0 = 0)
      hasError := t.hasError && t.mysql.session.answers 0 == 0 } := by
  simp only [rollback, hfin, Bool.false_eq_true, if_false, execute_of_running _ hfin]
  split_ifs with hzero <;> simp [hzero]

theorem Issued.commit (h : Issued past es t) : ∃ es', Issued past (es ++ es') t.commit.2 ∧
    (t.isFinished = false → t.hasError = false → es' = [(.commit, t.mysql.session.answers 0)]) ∧
    (t.isFinished = true ∨ t.hasError = true → es' = [] ∧ t.commit.2 = t) := by
  by_cases hrun : t.isFinished = false ∧ t.hasError = false
  · obtain ⟨hfin, herr⟩ := hrun
    refine ⟨_, ?_, fun _ _ => rfl, fun hdone => ?_⟩
    · rw [commit_of_running hfin herr]
      exact h.finish rfl rfl fun hzero => by simp [hzero, herr]
    · simp [hfin, herr] at hdone
  · have hdone : (t.isFinished || t.hasError) = true := by
      simp only [Bool.or_eq_true]
      by_contra hno
      simp at hno
      exact hrun hno
    have hkeep : t.commit.2 = t := by simp [MySQLTransaction.commit, hdone]
    refine ⟨[], ?_, fun hfin herr => absurd ⟨hfin, herr⟩ hrun, fun _ => ⟨rfl, hkeep⟩⟩
    rw [hkeep, append_nil]
    exact h

theorem Issued.rollback (h : Issued past es t) : ∃ es', Issued past (es ++ es') t.rollback.2 ∧
    (t.isFinished = false → es' = [(.rollback, t.mysql.session.answers 0)]) ∧
    (t.isFinished = true → es' = [] ∧ t.rollback.2 = t) := by
  cases hfin : t.isFinished with
  | false =>
    refine ⟨_, ?_, fun _ => rfl, nofun⟩
    rw [rollback_of_running hfin]
    exact h.finish rfl rfl fun hzero => by simp [hzero]
  | true =>
    have hkeep : t.rollback.2 = t := by simp [MySQLTransaction.rollback, hfin]
    refine ⟨[], ?_, nofun, fun _ => ⟨rfl, hkeep⟩⟩
    rw [hkeep, append_nil]
    exact h

theorem Issued.call (h : Issued past es t) (c : Call) :
    ∃ es', Issued past (es ++ es') (t.call c) := by
  cases c with
  | execute sql => exact h.execute
  | commit =>
    obtain ⟨es', h', -⟩ := h.commit
    exact ⟨es', h'⟩
  | rollback =>
    obtain ⟨es', h', -⟩ := h.rollback
    exact ⟨es', h'⟩

theorem Issued.calls (h : Issued past es t) (calls : List Call) :
    ∃ es', Issued past (es ++ es') (calls.foldl MySQLTransaction.call t) := by
  induction calls generalizing t es with
  | nil => exact ⟨[], by rwa [append_nil]⟩
  | cons c calls ih =>
    obtain ⟨es₁, h₁⟩ := h.call c
    obtain ⟨es₂, h₂⟩ := ih h₁
    exact ⟨es₁ ++ es₂, by rwa [← append_assoc]⟩

theorem create_issued
    (h : create mysql autoCommit = .inr t) :
    Issued mysql.session.log [(.begin, 0)] t ∧ t.autoCommit = autoCommit := by
  have hrun := execute_of_running .begin (t := ⟨mysql, autoCommit, false, false⟩) rfl
  simp only [create, begin, hrun] at h
  split_ifs at h with hok
  have hzero : mysql.session.answers 0 = 0 := by simpa using hok
  cases h
  refine ⟨⟨?_, ?_, fun _ => ?_, fun hdone => ?_⟩, rfl⟩
  · simp [MySQL.execute, Session.query, hzero]
  · simp [MySQL.execute, Session.query, hzero, leavesOpen, Statement.after]
  · simp [hzero, Fails]
  · cases hdone

def Recovers (t : MySQLTransaction) : Prop :=
  t.autoCommit = true → t.hasError = true → t.mysql.session.inTransaction = false

theorem Issued.closed_of_closes {rt : ℤ} (h : Issued past (es ++ [(sql, rt)]) t)
    (hsql : sql.closes = true) (hzero : rt = 0) : t.mysql.session.inTransaction = false := by
  rw [h.inTransaction_eq, leavesOpen_append, if_pos hzero]
  cases sql <;> simp [Statement.closes, Statement.after] at hsql ⊢

theorem Issued.destroy (h : Issued past es t) : ∃ es', t.destroy.session.log = past ++ (es ++ es') ∧
    (ClosesOk es' → (t.destroy.session.inTransaction = false ↔ Recovers t)) := by
  cases hfin : t.isFinished with
  | true =>
    have hclosed : t.mysql.session.inTransaction = false := by
      rw [h.inTransaction_eq, h.closed_of_finished hfin]
    have hkeep : t.destroy = t.mysql := by
      simp [MySQLTransaction.destroy, MySQLTransaction.commit, MySQLTransaction.rollback, hfin]
    refine ⟨[], ?_, fun _ => ?_⟩
    · rw [hkeep, append_nil, h.log_eq]
    · rw [hkeep, Recovers]
      simp [hclosed]
  | false =>
    cases hauto : t.autoCommit with
    | false =>
      obtain ⟨es', h', hissue, -⟩ := h.rollback
      have hend : t.destroy = t.rollback.2.mysql := by simp [MySQLTransaction.destroy, hauto]
      obtain rfl := hissue hfin
      refine ⟨_, hend ▸ h'.log_eq, fun hok => ?_⟩
      rw [hend, h'.closed_of_closes rfl (hok _ (mem_singleton_self _) rfl), Recovers, hauto]
      simp
    | true =>
      obtain ⟨es', h', hissue, hkeep⟩ := h.commit
      have hend : t.destroy = t.commit.2.mysql := by simp [MySQLTransaction.destroy, hauto]
      refine ⟨_, hend ▸ h'.log_eq, fun hok => ?_⟩
      cases herr : t.hasError with
      | false =>
        obtain rfl := hissue hfin herr
        rw [hend, h'.closed_of_closes rfl (hok _ (mem_singleton_self _) rfl), Recovers, herr]
        simp
      | true =>
        rw [hend, (hkeep (.inr herr)).2, Recovers, hauto, herr]
        simp

/-- With auto-commit, a statement fails and the transaction is open when the object is
destroyed. -/
def Abandons (autoCommit : Bool) (es : List (Statement × ℤ)) : Prop :=
  autoCommit = true ∧ Fails es ∧ leavesOpen es = true

theorem autoCommit_call (t : MySQLTransaction) (c : Call) :
    (t.call c).autoCommit = t.autoCommit := by
  have hexecute (sql : Statement) : (t.execute sql).2.autoCommit = t.autoCommit := by
    simp only [MySQLTransaction.execute]
    split_ifs <;> rfl
  cases c with
  | execute sql => exact hexecute sql
  | commit =>
    simp only [MySQLTransaction.call, MySQLTransaction.commit]
    split_ifs <;> simp [hexecute]
  | rollback =>
    simp only [MySQLTransaction.call, MySQLTransaction.rollback]
    split_ifs <;> simp [hexecute]

theorem autoCommit_calls (calls : List Call) (t : MySQLTransaction) :
    (calls.foldl call t).autoCommit = t.autoCommit := by
  induction calls generalizing t with
  | nil => rfl
  | cons c calls ih => rw [foldl_cons, ih, autoCommit_call]

theorem closed_iff_not_abandons
    (h : create mysql autoCommit = .inr t) (calls : List Call)
    (hok : ClosesOk ((calls.foldl call t).destroy.session.log.drop mysql.session.log.length)) :
    (calls.foldl call t).destroy.session.inTransaction = false ↔ ¬ Abandons autoCommit
      ((calls.foldl call t).mysql.session.log.drop mysql.session.log.length) := by
  obtain ⟨hissued, hauto⟩ := create_issued h
  obtain ⟨es, hcalls⟩ := hissued.calls calls
  obtain ⟨es', hlog, hclosed⟩ := hcalls.destroy
  rw [hlog, drop_left] at hok
  have hok₁ : ClosesOk ([(.begin, 0)] ++ es) := fun e he => hok e (mem_append_left _ he)
  rw [hclosed fun e he => hok e (mem_append_right _ he), hcalls.log_eq, drop_left,
    Recovers, Abandons, autoCommit_calls, hauto, hcalls.hasError_iff hok₁, hcalls.inTransaction_eq]
  simp

end MySQLTransaction

namespace MySQLManager

open MySQLTransaction

variable {p p' : MySQLManager} {m : MySQL}

/-- A transaction is destroyed only when it recovers, and the statement that the destructor
issues, if any, succeeds. -/
def Careful (p : MySQLManager) : Act → Prop
  | .destroy i => ∀ name t, p.transactions i = some (name, t) → Recovers t ∧
      ClosesOk (t.destroy.session.log.drop t.mysql.session.log.length)
  | _ => True

/-- Pooled connections have no open transaction, and transactions that are held have been
made by `create`. -/
structure Clean (p : MySQLManager) : Prop where
  closed : ∀ name, ∀ m ∈ p.conns name, m.session.inTransaction = false
  issued : ∀ i name t, p.transactions i = some (name, t) → ∃ past es, Issued past es t

theorem get_spec (name : String) (out : Surroundings)
    (hclosed : ∀ name, ∀ m ∈ p.conns name, m.session.inTransaction = false) :
    (∀ m, (p.get name out).1 = some m → m.session.inTransaction = false) ∧
    (∀ name', ∀ m ∈ (p.get name out).2.conns name', m ∈ p.conns name') ∧
    (p.get name out).2.transactions = p.transactions := by
  unfold get
  cases hconns : p.conns name with
  | nil =>
    simp only
    split
    · rename_i pool session hpool hfresh
      refine ⟨fun m hm => ?_, fun _ _ h => h, rfl⟩
      cases hm
      obtain ⟨answers, -, rfl⟩ := Option.map_eq_some_iff.mp hfresh
      rfl
    · exact ⟨nofun, fun _ _ h => h, rfl⟩
  | cons rt rest =>
    have hrt := hclosed name rt (by simp [hconns])
    have hrest : ∀ name', ∀ m ∈ update p.conns name rest name', m ∈ p.conns name' := by
      intro name' m hm
      rcases eq_or_ne name' name with rfl | hne
      · rw [update_self] at hm
        rw [hconns]
        exact mem_cons_of_mem _ hm
      · rwa [update_of_ne hne] at hm
    cases hcheck : rt.isNeedCheck out.now with
    | false =>
      simp only [hcheck, Bool.not_false, if_true]
      exact ⟨fun m hm => Option.some.inj hm ▸ hrt, hrest, trivial⟩
    | true =>
      simp only [hcheck, Bool.not_true, Bool.false_eq_true, if_false, MySQL.ping]
      cases halive : out.alive with
      | true => exact ⟨fun m hm => Option.some.inj hm ▸ hrt, hrest, rfl⟩
      | false =>
        simp only [MySQL.connect, Bool.false_eq_true, if_false]
        cases hfresh : out.fresh with
        | none => exact ⟨nofun, hrest, rfl⟩
        | some answers => exact ⟨fun m hm => Option.some.inj hm ▸ rfl, hrest, rfl⟩

theorem freeMySQL_spec (name : String) (m : MySQL) (p : MySQLManager) :
    (∀ name', ∀ m' ∈ (p.freeMySQL name m).conns name', m' ∈ p.conns name' ∨ m' = m) ∧
    (p.freeMySQL name m).transactions = p.transactions := by
  unfold freeMySQL
  split_ifs
  · refine ⟨fun name' m' hm => ?_, rfl⟩
    rcases eq_or_ne name' name with rfl | hne
    · simpa using hm
    · simp only [update_of_ne hne] at hm
      exact .inl hm
  · exact ⟨fun _ _ h => .inl h, rfl⟩

theorem Clean.free (h : Clean p) (name : String) (hm : m.session.inTransaction = false) :
    Clean (p.freeMySQL name m) := by
  obtain ⟨hconns, htrans⟩ := freeMySQL_spec name m p
  refine ⟨fun name' m' hm' => ?_, fun i name' t ht => ?_⟩
  · rcases hconns name' m' hm' with hold | rfl
    · exact h.closed name' m' hold
    · exact hm
  · rw [htrans] at ht
    exact h.issued i name' t ht

theorem Clean.setTransaction (h : Clean p) (i : ℕ) (o : Option (String × MySQLTransaction))
    (ho : ∀ name t, o = some (name, t) → ∃ past es, Issued past es t) :
    Clean { p with transactions := update p.transactions i o } := by
  refine ⟨h.closed, fun j name t ht => ?_⟩
  rcases eq_or_ne j i with rfl | hne
  · exact ho name t (by simpa using ht)
  · exact h.issued j name t (by simpa [update_of_ne hne] using ht)

theorem create_closed (hm : m.session.inTransaction = false)
    (h : create m autoCommit = .inl mysql) : mysql.session.inTransaction = false := by
  have hrun := execute_of_running .begin (t := ⟨m, autoCommit, false, false⟩) rfl
  simp only [create, MySQLTransaction.begin, hrun] at h
  split_ifs at h with hok
  have hne : m.session.answers 0 ≠ 0 := by simpa using hok
  cases h
  cases autoCommit with
  | true => simp [destroy, commit, hne, MySQL.execute, Session.query, hm]
  | false =>
    simp only [destroy, rollback, execute, MySQL.execute, Session.query, hm, hne, if_false,
      Bool.false_eq_true]
    split_ifs <;> rfl

theorem clean_step {a : Act} (h : Clean p) (hc : Careful p a) (hs : step p a p') : Clean p' := by
  cases a with
  | openTransaction i name autoCommit out =>
    obtain ⟨-, rfl⟩ := hs
    obtain ⟨hhanded, hconns, htrans⟩ := get_spec name out h.closed
    have hclean : Clean (p.get name out).2 :=
      ⟨fun name' m hm => h.closed name' m (hconns name' m hm), htrans ▸ h.issued⟩
    unfold openTransaction
    split
    · rename_i q hget
      rwa [hget] at hclean
    · rename_i conn q hget
      rw [hget] at hclean hhanded
      split
      · rename_i mysql hcreate
        exact hclean.free name (create_closed (hhanded conn rfl) hcreate)
      · rename_i t hcreate
        refine hclean.setTransaction i _ fun name' t' heq => ?_
        cases heq
        exact ⟨_, _, (create_issued hcreate).1⟩
  | call i c =>
    obtain ⟨name, t, ht, rfl⟩ := hs
    obtain ⟨past, es, hissued⟩ := h.issued i name t ht
    refine h.setTransaction i _ fun name' t' heq => ?_
    cases heq
    obtain ⟨es', hcall⟩ := hissued.call c
    exact ⟨past, _, hcall⟩
  | destroy i =>
    obtain ⟨name, t, ht, rfl⟩ := hs
    obtain ⟨hrec, hok⟩ := hc name t ht
    obtain ⟨past, es, hissued⟩ := h.issued i name t ht
    obtain ⟨es', hlog, hclosed⟩ := hissued.destroy
    rw [hlog, hissued.log_eq, ← append_assoc, drop_left] at hok
    refine (h.setTransaction i none nofun).free name ?_
    exact (hclosed hok).mpr hrec

theorem clean_of_initial (h : initial p) : Clean p := by
  obtain ⟨hconns, htrans⟩ := h
  refine ⟨fun name m hm => ?_, fun i name t ht => ?_⟩
  · rw [hconns name] at hm
    cases hm
  · rw [htrans i] at ht
    cases ht

/-- The connection is closed when the transaction object is destroyed, exactly when the
transaction has not been abandoned; and when every destructor recovers, no connection in the
pool or handed out by it is inside a transaction. -/
theorem connection_closed_iff_not_abandoned (mysql : MySQL) (autoCommit : Bool)
    (t : MySQLTransaction) (calls : List Call) (p : MySQLManager) :
    (create mysql autoCommit = .inr t →
      ClosesOk ((calls.foldl call t).destroy.session.log.drop mysql.session.log.length) →
      ((calls.foldl call t).destroy.session.inTransaction = false ↔ ¬ Abandons autoCommit
        ((calls.foldl call t).mysql.session.log.drop mysql.session.log.length))) ∧
    (Reachable initial step Careful p →
      (∀ name, ∀ m ∈ p.conns name, m.session.inTransaction = false) ∧
      ∀ name out m, (p.get name out).1 = some m → m.session.inTransaction = false) := by
  refine ⟨fun h hok => closed_iff_not_abandons h calls hok, fun hp => ?_⟩
  have hclean : Clean p := hp.invariant (fun _ => clean_of_initial)
    fun _ _ _ h hc hs => clean_step h hc hs
  exact ⟨hclean.closed, fun name out => (get_spec name out hclean.closed).1⟩

theorem step_call {i : ℕ} {name : String} {t : MySQLTransaction} (c : Call)
    (h : p.transactions i = some (name, t)) : step p (.call i c)
      { p with transactions := update p.transactions i (some (name, t.call c)) } :=
  ⟨name, t, h, rfl⟩

theorem step_destroy {i : ℕ} {name : String} {t : MySQLTransaction}
    (h : p.transactions i = some (name, t)) : step p (.destroy i)
      (freeMySQL name t.destroy { p with transactions := update p.transactions i none }) :=
  ⟨name, t, h, rfl⟩

def oneDatabase : MySQLManager := ⟨fun _ => [], fun _ => some 5, fun _ => none⟩

theorem initial_oneDatabase : initial oneDatabase := ⟨fun _ => rfl, fun _ => rfl⟩

theorem reachable_open {C : MySQLManager → Act → Prop} (out : Surroundings)
    (hC : C oneDatabase (.openTransaction 0 "db" true out)) :
    Reachable initial step C (oneDatabase.openTransaction 0 "db" true out) :=
  (Reachable.start initial_oneDatabase).next hC ⟨rfl, rfl⟩

def willing : MySQL := .connectNew 5 (.connected fun _ => 0)

theorem connection_closed_iff_not_abandoned_willing :
    (∃ t, create willing true = .inr t ∧
      (t.call (.execute (.ordinary "INSERT"))).destroy.session.inTransaction = false) ∧
    ∃ p, Reachable initial step Careful p ∧ p.conns "db" ≠ [] ∧
      ∀ m ∈ p.conns "db", m.session.inTransaction = false := by
  have hp₁ := reachable_open (C := Careful) ⟨0, true, some fun _ => 0⟩ trivial
  have hp₂ := hp₁.andThen (step_destroy (i := 0) rfl) (by
    rintro name t ⟨⟩
    exact ⟨nofun, by unfold ClosesOk; decide⟩)
  obtain ⟨hclosed, hpool⟩ := connection_closed_iff_not_abandoned willing true _
    [.execute (.ordinary "INSERT")] _
  constructor
  · refine ⟨_, rfl, (hclosed rfl (by unfold ClosesOk; decide)).mpr ?_⟩
    rintro ⟨-, ⟨e, he, hne⟩, -⟩
    revert e
    decide
  · exact ⟨_, hp₂, cons_ne_nil _ _, (hpool hp₂).1 "db"⟩

/-- With auto-commit a statement fails, and the transaction is destroyed: no `COMMIT` and no
`ROLLBACK` is issued, and the next user gets the connection with the transaction open. -/
theorem abandoned_connection_handed_on :
    ∃ p, Reachable initial step (fun _ _ => True) p ∧
      ∃ m, (p.get "db" ⟨0, true, none⟩).1 = some m ∧ m.session.inTransaction = true ∧
        m.session.log = [(.begin, 0), (.ordinary "INSERT", 1)] := by
  have hp₁ := reachable_open (C := fun _ _ => True)
    ⟨0, true, some fun i => if i = 1 then 1 else 0⟩ trivial
  have hp₂ := hp₁.andThen (step_call (i := 0) (.execute (.ordinary "INSERT")) rfl)
  have hp₃ := hp₂.andThen (step_destroy (i := 0) rfl)
  exact ⟨_, hp₃, _, rfl, rfl, rfl⟩

end MySQLManager
end JKYi.Db
