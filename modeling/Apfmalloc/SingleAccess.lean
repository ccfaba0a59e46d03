import Apfmalloc.Base.Runs

/-!
# `single_access.rs`: one thread runs the function, the others wait

`init_malloc` runs behind a `SingleAccess`, three flags that any number of
threads read and write without a lock. Here every read of `skip` and `wait`, the
compare-and-swap on `access`, every write of the executor and the two ends of
each function it calls are steps of their own, and the threads interleave freely.
A thread that returned may call again.

The log of the system says which call did what, newest first. `Once` is the
contract over the log: one `func` is started, nobody returns before it has
finished, and `after` runs in the same call once it has. The invariant behind it
(`Sys.Inv`) ties the program counter of each thread to the log: at most one
thread is between its compare-and-swap and the end of its `after`, and only that
thread's position says anything.
-/

namespace Apfmalloc

open Base

/-- `SingleAccessInternal`. -/
structure SingleAccess where
  access : Bool
  wait : Bool
  skip : Bool
  deriving DecidableEq, Repr

namespace SingleAccess

def new : SingleAccess := ⟨false, true, false⟩

/-- `with` or `with_then`. -/
inductive Method
  | withFunc
  | withThen
  deriving DecidableEq, Repr

/-- The next atomic step of a call. -/
inductive Pc
  | readSkip
  | cas
  | startFunc
  | endFunc
  | clearWait
  | setSkip
  | startAfter
  | endAfter
  | readWait
  deriving DecidableEq, Repr

inductive Event
  | funcStart
  | funcEnd
  | afterStart
  | afterEnd
  | ret
  deriving DecidableEq, Repr

/-- One step of a call: the flags, where the call goes on (`none` when it
returns), and what there is to log. -/
def next (m : Method) : Pc → SingleAccess → SingleAccess × Option Pc × Option Event
  | .readSkip, o => if o.skip then (o, none, some .ret) else (o, some .cas, none)
  | .cas, o =>
    -- `compare_and_swap(false, true)` gives the old value
    if o.access then (o, some .readWait, none)
    else ({ o with access := true }, some .startFunc, none)
  | .startFunc, o => (o, some .endFunc, some .funcStart)
  | .endFunc, o => (o, some .clearWait, some .funcEnd)
  | .clearWait, o => ({ o with wait := false }, some .setSkip, none)
  | .setSkip, o =>
    ({ o with skip := true },
      match m with
      | .withFunc => some .readWait
      | .withThen => some .startAfter,
      none)
  | .startAfter, o => (o, some .endAfter, some .afterStart)
  | .endAfter, o => (o, some .readWait, some .afterEnd)
  | .readWait, o => if o.wait then (o, some .readWait, none) else (o, none, some .ret)

/-- A call in progress; `id` tells the calls apart. -/
structure Call where
  id : Nat
  method : Method
  pc : Pc
  deriving DecidableEq, Repr

structure Sys where
  obj : SingleAccess
  thread : Nat → Option Call
  calls : Nat
  log : List (Nat × Event)

namespace Sys

def init : Sys := ⟨new, fun _ => none, 0, []⟩

def setThread (s : Sys) (t : Nat) (k : Option Call) : Sys :=
  { s with thread := fun t' => if t' = t then k else s.thread t' }

/-- The state after a step of thread `t` in call `k` with the given outcome. -/
def advance (s : Sys) (t : Nat) (k : Call) (r : SingleAccess × Option Pc × Option Event) : Sys :=
  { s.setThread t (r.2.1.map fun pc => { k with pc := pc }) with
    obj := r.1, log := (r.2.2.map fun e => (k.id, e)).toList ++ s.log }

end Sys

inductive SysOp
  | call (t : Nat) (m : Method)
  | step (t : Nat)
  deriving DecidableEq, Repr

inductive SysStep : Sys → SysOp → Sys → Prop
  | call {s : Sys} {t : Nat} {m : Method} : s.thread t = none →
      SysStep s (.call t m)
        { s.setThread t (some ⟨s.calls, m, .readSkip⟩) with calls := s.calls + 1 }
  | step {s : Sys} {t : Nat} {k : Call} : s.thread t = some k →
      SysStep s (.step t) (s.advance t k (next k.method k.pc s.obj))

@[simp] theorem setThread_same (s : Sys) (t : Nat) (k : Option Call) :
    (s.setThread t k).thread t = k := if_pos rfl

theorem setThread_other (s : Sys) {t t' : Nat} (k : Option Call) (h : t' ≠ t) :
    (s.setThread t k).thread t' = s.thread t' := if_neg h

/-! ## The contract -/

/-- How often an event is in the log. -/
def count (e : Event) (log : List (Nat × Event)) : Nat := log.countP fun x => x.2 = e

/-- What a log, newest first, may look like. -/
structure Once (log : List (Nat × Event)) : Prop where
  func : count .funcStart log ≤ 1
  funcEnd : ∀ post i pre, log = post ++ (i, .funcEnd) :: pre → (i, .funcStart) ∈ pre
  ret : ∀ post i pre, log = post ++ (i, .ret) :: pre → ∃ j, (j, .funcEnd) ∈ pre
  after : count .afterStart log ≤ 1
  afterStart : ∀ post i pre, log = post ++ (i, .afterStart) :: pre → (i, .funcEnd) ∈ pre

theorem count_cons_self (i : Nat) (e : Event) (log : List (Nat × Event)) :
    count e ((i, e) :: log) = count e log + 1 :=
  List.countP_cons_of_pos (decide_eq_true rfl)

theorem count_cons_ne {e e' : Event} (i : Nat) (log : List (Nat × Event)) (h : e' ≠ e) :
    count e ((i, e') :: log) = count e log :=
  List.countP_cons_of_neg (by simpa using h)

/-- An entry is at the front of a longer log or was in it before. -/
theorem split_cons {x y : Nat × Event} {log post pre : List (Nat × Event)}
    (h : x :: log = post ++ y :: pre) : (y = x ∧ pre = log) ∨ ∃ post', log = post' ++ y :: pre := by
  cases post with
  | nil =>
    rw [List.nil_append, List.cons.injEq] at h
    exact Or.inl ⟨h.1.symm, h.2.symm⟩
  | cons z post' =>
    rw [List.cons_append, List.cons.injEq] at h
    exact Or.inr ⟨post', h.2⟩

/-- What each new entry must find in the log. -/
theorem Once.cons {log : List (Nat × Event)} (h : Once log) (i : Nat) (e : Event)
    (hfunc : e = .funcStart → count .funcStart log = 0)
    (hend : e = .funcEnd → (i, .funcStart) ∈ log)
    (hret : e = .ret → ∃ j, (j, .funcEnd) ∈ log)
    (hafter : e = .afterStart → count .afterStart log = 0 ∧ (i, .funcEnd) ∈ log) :
    Once ((i, e) :: log) := by
  refine ⟨?_, fun post j pre hl => ?_, fun post j pre hl => ?_, ?_, fun post j pre hl => ?_⟩
  · by_cases he : e = .funcStart
    · exact Nat.le_of_eq (by rw [he, count_cons_self, hfunc he])
    · rw [count_cons_ne i log he]
      exact h.func
  · rcases split_cons hl with ⟨hx, rfl⟩ | ⟨post', hl⟩
    · obtain ⟨rfl, rfl⟩ := Prod.mk.inj hx
      exact hend rfl
    · exact h.funcEnd post' j pre hl
  · rcases split_cons hl with ⟨hx, rfl⟩ | ⟨post', hl⟩
    · obtain ⟨rfl, rfl⟩ := Prod.mk.inj hx
      exact hret rfl
    · exact h.ret post' j pre hl
  · by_cases he : e = .afterStart
    · exact Nat.le_of_eq (by rw [he, count_cons_self, (hafter he).1])
    · rw [count_cons_ne i log he]
      exact h.after
  · rcases split_cons hl with ⟨hx, rfl⟩ | ⟨post', hl⟩
    · obtain ⟨rfl, rfl⟩ := Prod.mk.inj hx
      exact (hafter rfl).2
    · exact h.afterStart post' j pre hl

/-! ## The invariant -/

/-- Between the compare-and-swap that succeeded and the last step of the branch. -/
def Pc.Executing : Pc → Prop
  | .startFunc | .endFunc | .clearWait | .setSkip | .startAfter | .endAfter => True
  | .readSkip | .cas | .readWait => False

/-- What the log says when call `i` is at a program counter. -/
def LogAt (log : List (Nat × Event)) (i : Nat) : Pc → Prop
  | .startFunc => count .funcStart log = 0 ∧ count .afterStart log = 0
  | .endFunc => (i, .funcStart) ∈ log ∧ count .afterStart log = 0
  | .clearWait | .setSkip | .startAfter => (i, .funcEnd) ∈ log ∧ count .afterStart log = 0
  | .endAfter | .readSkip | .cas | .readWait => True

/-- Before the first compare-and-swap nothing has happened. -/
structure Untouched (s : Sys) : Prop where
  idle : ∀ t k, s.thread t = some k → ¬k.pc.Executing
  func : count .funcStart s.log = 0
  after : count .afterStart s.log = 0

structure Sys.Inv (s : Sys) : Prop where
  once : Once s.log
  one : ∀ t t' k k', s.thread t = some k → k.pc.Executing → s.thread t' = some k' →
    k'.pc.Executing → t = t'
  logAt : ∀ t k, s.thread t = some k → LogAt s.log k.id k.pc
  untouched : s.obj.access = false → Untouched s
  wait : s.obj.wait = false → ∃ j, (j, .funcEnd) ∈ s.log
  skip : s.obj.skip = true → ∃ j, (j, .funcEnd) ∈ s.log

theorem LogAt.of_idle {pc : Pc} (h : ¬pc.Executing) (log : List (Nat × Event)) (i : Nat) :
    LogAt log i pc := by
  cases pc <;> first | trivial | exact absurd trivial h

theorem Sys.inv_init : Sys.init.Inv := by
  refine ⟨⟨Nat.zero_le _, ?_, ?_, Nat.zero_le _, ?_⟩, fun _ _ _ _ h => ?_, fun _ _ h => ?_,
    fun _ => ⟨fun _ _ h => ?_, rfl, rfl⟩, fun h => ?_, fun h => ?_⟩
  · intro post i pre h
    cases post <;> cases h
  · intro post i pre h
    cases post <;> cases h
  · intro post i pre h
    cases post <;> cases h
  all_goals cases h

/-! ## One step -/

/-- The log after a step. -/
def addLog (i : Nat) (e : Option Event) (log : List (Nat × Event)) : List (Nat × Event) :=
  (e.map fun e => (i, e)).toList ++ log

theorem advance_log (s : Sys) (t : Nat) (k : Call) (r : SingleAccess × Option Pc × Option Event) :
    (s.advance t k r).log = addLog k.id r.2.2 s.log := rfl

theorem advance_same (s : Sys) (t : Nat) (k : Call)
    (r : SingleAccess × Option Pc × Option Event) :
    (s.advance t k r).thread t = r.2.1.map fun pc => { k with pc := pc } :=
  setThread_same ..

theorem advance_other (s : Sys) (k : Call) (r : SingleAccess × Option Pc × Option Event)
    {t t' : Nat} (h : t' ≠ t) : (s.advance t k r).thread t' = s.thread t' :=
  setThread_other _ _ h

/-- A thread outside the branch of the executor logs nothing but its return. -/
def Silent (e : Option Event) : Prop := e = none ∨ e = some .ret

theorem Silent.count {ev : Option Event} (h : Silent ev) {e : Event} (he : e ≠ .ret) (i : Nat)
    (log : List (Nat × Event)) : count e (addLog i ev log) = count e log := by
  rcases h with rfl | rfl
  · rfl
  · exact count_cons_ne i log he.symm

theorem mem_addLog {x : Nat × Event} {log : List (Nat × Event)} (h : x ∈ log) (i : Nat)
    (e : Option Event) : x ∈ addLog i e log :=
  List.mem_append_right _ h

theorem LogAt.addLog {ev : Option Event} {log : List (Nat × Event)} {i : Nat} {pc : Pc}
    (h : LogAt log i pc) (hs : Silent ev) (j : Nat) : LogAt (addLog j ev log) i pc := by
  have hafter := hs.count (e := .afterStart) (by decide) j log
  cases pc with
  | startFunc => exact ⟨(hs.count (by decide) j log).trans h.1, hafter.trans h.2⟩
  | endFunc => exact ⟨mem_addLog h.1 j ev, hafter.trans h.2⟩
  | clearWait => exact ⟨mem_addLog h.1 j ev, hafter.trans h.2⟩
  | setSkip => exact ⟨mem_addLog h.1 j ev, hafter.trans h.2⟩
  | startAfter => exact ⟨mem_addLog h.1 j ev, hafter.trans h.2⟩
  | endAfter => trivial
  | readSkip => trivial
  | cas => trivial
  | readWait => trivial

/-- What the steps of a call at `pc` have in common, whatever the flags. -/
structure NextOk (pc : Pc) (o o' : SingleAccess) (pc' : Option Pc) (ev : Option Event) : Prop where
  access : o'.access = false → o.access = false ∧ (¬pc.Executing → ∀ q, pc' = some q → ¬q.Executing)
  silent : ¬pc.Executing → Silent ev
  enter : ∀ q, pc' = some q → q.Executing → pc.Executing ∨ o.access = false

theorem next_ok (m : Method) (pc : Pc) (o : SingleAccess) :
    NextOk pc o (next m pc o).1 (next m pc o).2.1 (next m pc o).2.2 := by
  obtain ⟨access, wait, skip⟩ := o
  cases m <;> cases pc <;> cases access <;> cases wait <;> cases skip <;>
    refine ⟨?_, ?_, ?_⟩ <;> simp [next, Pc.Executing, Silent]

/-- Every thread is where it may be after a step whose own thread is. -/
theorem Sys.Inv.advance {s : Sys} {t : Nat} {k : Call}
    {r : SingleAccess × Option Pc × Option Event} (h : s.Inv) (ht : s.thread t = some k)
    (hr : NextOk k.pc s.obj r.1 r.2.1 r.2.2) (honce : Once (addLog k.id r.2.2 s.log))
    (hat : ∀ pc, r.2.1 = some pc → LogAt (addLog k.id r.2.2 s.log) k.id pc)
    (hwait : r.1.wait = false → ∃ j, (j, .funcEnd) ∈ s.log)
    (hskip : r.1.skip = true → ∃ j, (j, .funcEnd) ∈ s.log) : (s.advance t k r).Inv := by
  -- a thread that executes after the step is the one that moved, or was executing all along
  have hold : ∀ t' k', (s.advance t k r).thread t' = some k' → t' ≠ t → s.thread t' = some k' :=
    fun t' k' h' hne => (advance_other s k r hne).symm.trans h'
  have hnew : ∀ k', (s.advance t k r).thread t = some k' →
      ∃ pc, r.2.1 = some pc ∧ k' = { k with pc := pc } := by
    intro k' h'
    rw [advance_same, Option.map_eq_some_iff] at h'
    obtain ⟨pc, hpc, rfl⟩ := h'
    exact ⟨pc, hpc, rfl⟩
  have honly : ∀ t' k', (s.advance t k r).thread t = some k' → k'.pc.Executing → t' ≠ t →
      ∀ k₂, s.thread t' = some k₂ → ¬k₂.pc.Executing := by
    intro t' k' h' hx hne k₂ h₂ hx₂
    obtain ⟨pc, hpc, rfl⟩ := hnew k' h'
    -- it was executing before, or has just won the compare-and-swap
    rcases hr.enter pc hpc hx with hk | hopen
    · exact hne (h.one t' t k₂ k h₂ hx₂ ht hk)
    · exact (h.untouched hopen).idle t' k₂ h₂ hx₂
  refine ⟨honce, fun t₁ t₂ k₁ k₂ h₁ hx₁ h₂ hx₂ => ?_, fun t' k' h' => ?_, fun hopen => ?_,
    fun hw => (hwait hw).imp fun j hj => mem_addLog hj _ _,
    fun hs => (hskip hs).imp fun j hj => mem_addLog hj _ _⟩
  · by_cases e₁ : t₁ = t
    · by_cases e₂ : t₂ = t
      · rw [e₁, e₂]
      · subst e₁
        exact absurd hx₂ (honly t₂ k₁ h₁ hx₁ e₂ k₂ (hold t₂ k₂ h₂ e₂))
    · by_cases e₂ : t₂ = t
      · subst e₂
        exact absurd hx₁ (honly t₁ k₂ h₂ hx₂ e₁ k₁ (hold t₁ k₁ h₁ e₁))
      · exact h.one t₁ t₂ k₁ k₂ (hold t₁ k₁ h₁ e₁) hx₁ (hold t₂ k₂ h₂ e₂) hx₂
  · rw [advance_log]
    by_cases he : t' = t
    · subst he
      obtain ⟨pc, hpc, rfl⟩ := hnew k' h'
      exact hat pc hpc
    · have h₀ := hold t' k' h' he
      by_cases hx : k'.pc.Executing
      · -- another thread is executing, so this step was silent
        have hidle : ¬k.pc.Executing := fun hk => he (h.one t' t k' k h₀ hx ht hk)
        exact (h.logAt t' k' h₀).addLog (hr.silent hidle) k.id
      · exact .of_idle hx _ _
  · obtain ⟨hopen₀, hpc'⟩ := hr.access hopen
    have hu := h.untouched hopen₀
    have hidle := hu.idle t k ht
    refine ⟨fun t' k' h' => ?_, ?_, ?_⟩
    · by_cases he : t' = t
      · subst he
        obtain ⟨pc, hpc, rfl⟩ := hnew k' h'
        exact hpc' hidle pc hpc
      · exact hu.idle t' k' (hold t' k' h' he)
    · exact ((hr.silent hidle).count (by decide) k.id s.log).trans hu.func
    · exact ((hr.silent hidle).count (by decide) k.id s.log).trans hu.after

theorem step_inv {s : Sys} {t : Nat} {k : Call} (h : s.Inv) (ht : s.thread t = some k) :
    (s.advance t k (next k.method k.pc s.obj)).Inv := by
  have hlog := h.logAt t k ht
  have hok := next_ok k.method k.pc s.obj
  obtain ⟨i, m, pc⟩ := k
  simp only at hlog hok ⊢
  cases pc with
  | readSkip =>
    simp only [next] at hok ⊢
    by_cases hskip : s.obj.skip = true
    · rw [if_pos hskip] at hok ⊢
      exact h.advance ht hok (h.once.cons i .ret (fun e => by cases e) (fun e => by cases e)
        (fun _ => h.skip hskip) fun e => by cases e) (fun _ e => by cases e) h.wait h.skip
    · rw [if_neg hskip] at hok ⊢
      exact h.advance ht hok h.once (fun _ e => by cases e; trivial) h.wait h.skip
  | cas =>
    simp only [next] at hok ⊢
    by_cases hacc : s.obj.access = true
    · rw [if_pos hacc] at hok ⊢
      exact h.advance ht hok h.once (fun _ e => by cases e; trivial) h.wait h.skip
    · rw [if_neg hacc] at hok ⊢
      -- the first compare-and-swap to succeed: nothing is in the log yet
      have hu := h.untouched (Bool.eq_false_iff.mpr hacc)
      exact h.advance ht hok h.once (fun _ e => by cases e; exact ⟨hu.func, hu.after⟩) h.wait h.skip
  | startFunc =>
    refine h.advance ht hok (h.once.cons i .funcStart (fun _ => hlog.1) (fun e => by cases e)
      (fun e => by cases e) fun e => by cases e) (fun _ e => ?_) h.wait h.skip
    cases e
    exact ⟨List.mem_cons_self .., (count_cons_ne i s.log (by decide)).trans hlog.2⟩
  | endFunc =>
    refine h.advance ht hok (h.once.cons i .funcEnd (fun e => by cases e) (fun _ => hlog.1)
      (fun e => by cases e) fun e => by cases e) (fun _ e => ?_) h.wait h.skip
    cases e
    exact ⟨List.mem_cons_self .., (count_cons_ne i s.log (by decide)).trans hlog.2⟩
  | clearWait =>
    exact h.advance ht hok h.once (fun _ e => by cases e; exact hlog) (fun _ => ⟨i, hlog.1⟩) h.skip
  | setSkip =>
    refine h.advance ht hok h.once (fun _ e => ?_) h.wait fun _ => ⟨i, hlog.1⟩
    cases m with
    | withFunc => cases e; trivial
    -- `after` is still to come
    | withThen => cases e; exact hlog
  | startAfter =>
    exact h.advance ht hok (h.once.cons i .afterStart (fun e => by cases e) (fun e => by cases e)
      (fun e => by cases e) fun _ => ⟨hlog.2, hlog.1⟩) (fun _ e => by cases e; trivial) h.wait h.skip
  | endAfter =>
    exact h.advance ht hok (h.once.cons i .afterEnd (fun e => by cases e) (fun e => by cases e)
      (fun e => by cases e) fun e => by cases e) (fun _ e => by cases e; trivial) h.wait h.skip
  | readWait =>
    simp only [next] at hok ⊢
    by_cases hwait : s.obj.wait = true
    · rw [if_pos hwait] at hok ⊢
      exact h.advance ht hok h.once (fun _ e => by cases e; trivial) h.wait h.skip
    · rw [if_neg hwait] at hok ⊢
      exact h.advance ht hok (h.once.cons i .ret (fun e => by cases e) (fun e => by cases e)
        (fun _ => h.wait (Bool.eq_false_iff.mpr hwait)) fun e => by cases e)
        (fun _ e => by cases e) h.wait h.skip

/-- A thread that starts a call is not executing. -/
theorem call_inv {s : Sys} {t : Nat} {m : Method} (h : s.Inv) :
    Sys.Inv { s.setThread t (some ⟨s.calls, m, .readSkip⟩) with calls := s.calls + 1 } := by
  have hcase : ∀ t' k', (s.setThread t (some ⟨s.calls, m, .readSkip⟩)).thread t' = some k' →
      k'.pc.Executing → s.thread t' = some k' := by
    intro t' k' h' hx
    by_cases he : t' = t
    · subst he
      rw [setThread_same] at h'
      cases h'
      exact absurd hx id
    · rw [setThread_other _ _ he] at h'
      exact h'
  refine ⟨h.once, fun t₁ t₂ k₁ k₂ h₁ hx₁ h₂ hx₂ =>
    h.one t₁ t₂ k₁ k₂ (hcase t₁ k₁ h₁ hx₁) hx₁ (hcase t₂ k₂ h₂ hx₂) hx₂, fun t' k' h' => ?_,
    fun hopen => ?_, h.wait, h.skip⟩
  · by_cases hx : k'.pc.Executing
    · exact h.logAt t' k' (hcase t' k' h' hx)
    · exact .of_idle hx _ _
  · have hu := h.untouched hopen
    exact ⟨fun t' k' h' hx => hu.idle t' k' (hcase t' k' h' hx) hx, hu.func, hu.after⟩

theorem sysStep_inv {s s' : Sys} {op : SysOp} (h : s.Inv) (hstep : SysStep s op s') : s'.Inv := by
  cases hstep with
  | call _ => exact call_inv h
  | step ht => exact step_inv h ht

/-- **One thread executes.** In every interleaving of calls of any number of
threads at most one `func` is started, no call returns before it has finished, and
an `after` runs at most once, in the call that ran `func` and after it. -/
theorem single_access_once {s : Sys} {ops : List SysOp} (hrun : Run SysStep Sys.init ops s) :
    Once s.log :=
  (Run.invariant (P := Sys.Inv) sysStep_inv hrun Sys.inv_init).once

/-- Thread 0 executes while thread 1 waits; both return. -/
theorem single_access_once_two : ∃ s : Sys,
    Run SysStep Sys.init [.call 0 .withThen, .call 1 .withFunc, .step 0, .step 1, .step 0, .step 1,
      .step 0, .step 1, .step 0, .step 0, .step 1, .step 0, .step 0, .step 0, .step 0] s ∧
    s.log = [(0, .ret), (0, .afterEnd), (0, .afterStart), (1, .ret), (0, .funcEnd),
      (0, .funcStart)] ∧ Once s.log := by
  have hex : ∃ s : Sys, Run SysStep Sys.init [.call 0 .withThen, .call 1 .withFunc, .step 0,
      .step 1, .step 0, .step 1, .step 0, .step 1, .step 0, .step 0, .step 1, .step 0, .step 0,
      .step 0, .step 0] s ∧ s.log = [(0, .ret), (0, .afterEnd), (0, .afterStart), (1, .ret),
        (0, .funcEnd), (0, .funcStart)] :=
    ⟨_, .cons (.call rfl) (.cons (.call rfl) (.cons (.step rfl) (.cons (.step rfl)
      (.cons (.step rfl) (.cons (.step rfl) (.cons (.step rfl) (.cons (.step rfl) (.cons (.step rfl)
      (.cons (.step rfl) (.cons (.step rfl) (.cons (.step rfl) (.cons (.step rfl) (.cons (.step rfl)
      (.cons (.step rfl) (.nil _))))))))))))))), rfl⟩
  obtain ⟨s, hrun, hlog⟩ := hex
  exact ⟨s, hrun, hlog, single_access_once hrun⟩

end SingleAccess

end Apfmalloc
