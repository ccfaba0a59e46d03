import Apfmalloc.Alloc
import Apfmalloc.Base.Runs

/-!
# The partial list, one atomic step at a time

`list_push_partial` and `list_pop_partial` are a lock-free stack on one word,
`partial_list`. Here every atomic load, store and compare-exchange is a step of
its own and any number of threads interleave; a weak compare-exchange may also
fail for no reason. The ghost field `loc` says who has a descriptor: nobody, a
thread, or the list.

The counter in a node is the only protection against a head that went away and
came back. A push takes the old head's counter plus one, but a pop puts the
counter of the next node back, so the counter is the height of the stack and
not the number of operations: after two pops and two pushes the same head is
there again, over a different list. `PopOk` is the missing guard: the pop that
succeeds installs the descriptor that is below the head now. With it the list
is a stack in every interleaving; without it a descriptor can be lost.
-/

namespace Apfmalloc

open Base

/-- Where a thread is in one of the two functions, with its locals. -/
inductive Pc
  | idle
  | popLoad
  | popNext (oldHead : DescriptorNode) (oldDesc : Nat)
  | popCas (oldHead : DescriptorNode) (oldDesc : Nat) (newHead : Option DescriptorNode)
  | pushLoad (desc : Nat)
  | pushStore (desc : Nat) (oldHead : Option DescriptorNode)
  | pushCas (desc : Nat) (oldHead : Option DescriptorNode)
  deriving DecidableEq, Repr

/-- Who has a descriptor. -/
inductive Loc
  | free
  | owned (t : Nat)
  | listed
  deriving DecidableEq, Repr

structure ListState where
  partialList : Option DescriptorNode
  nextPartial : Nat → Option DescriptorNode
  pc : Nat → Pc
  loc : Nat → Loc

namespace ListState

def init : ListState := ⟨none, fun _ => none, fun _ => .idle, fun _ => .free⟩

def setPc (s : ListState) (t : Nat) (p : Pc) : ListState :=
  { s with pc := fun t' => if t' = t then p else s.pc t' }

def setLoc (s : ListState) (d : Nat) (x : Loc) : ListState :=
  { s with loc := fun d' => if d' = d then x else s.loc d' }

def setNextPartial (s : ListState) (d : Nat) (n : Option DescriptorNode) : ListState :=
  { s with nextPartial := fun d' => if d' = d then n else s.nextPartial d' }

end ListState

inductive ListOp
  | make (t d : Nat)
  | retire (t d : Nat)
  | pop (t : Nat)
  | popEmpty (t : Nat)
  | popLoad (t : Nat)
  | popNext (t : Nat)
  | popRet (t d : Nat)
  | popRetry (t : Nat)
  | push (t d : Nat)
  | pushLoad (t : Nat)
  | pushStore (t : Nat)
  | pushRet (t d : Nat)
  | pushRetry (t : Nat)
  deriving DecidableEq, Repr

/-- One atomic step of thread `t`. `make` and `retire` are how a thread comes by
a new descriptor and gives one up; an `unwrap` of null has no step. -/
inductive ListStep : ListState → ListOp → ListState → Prop
  | make {s : ListState} {t d : Nat} : DescAddr d → s.loc d = .free →
      ListStep s (.make t d) (s.setLoc d (.owned t))
  | retire {s : ListState} {t d : Nat} : s.pc t = .idle → s.loc d = .owned t →
      ListStep s (.retire t d) (s.setLoc d .free)
  | pop {s : ListState} {t : Nat} : s.pc t = .idle → ListStep s (.pop t) (s.setPc t .popLoad)
  | popEmpty {s : ListState} {t : Nat} : s.pc t = .popLoad → s.partialList = none →
      ListStep s (.popEmpty t) (s.setPc t .idle)
  | popLoad {s : ListState} {t d : Nat} {oldHead : DescriptorNode} : s.pc t = .popLoad →
      s.partialList = some oldHead → oldHead.getDesc = some d →
      ListStep s (.popLoad t) (s.setPc t (.popNext oldHead d))
  | popNext {s : ListState} {t d : Nat} {oldHead : DescriptorNode}
      {newHead : Option DescriptorNode} : s.pc t = .popNext oldHead d →
      popNewHead (s.nextPartial d) = some newHead →
      ListStep s (.popNext t) (s.setPc t (.popCas oldHead d newHead))
  | popRet {s : ListState} {t d : Nat} {oldHead : DescriptorNode}
      {newHead : Option DescriptorNode} : s.pc t = .popCas oldHead d newHead →
      s.partialList = some oldHead →
      ListStep s (.popRet t d)
        (({ s with partialList := newHead }.setLoc d (.owned t)).setPc t .idle)
  | popRetry {s : ListState} {t d : Nat} {oldHead : DescriptorNode}
      {newHead : Option DescriptorNode} : s.pc t = .popCas oldHead d newHead →
      ListStep s (.popRetry t) (s.setPc t .popLoad)
  | push {s : ListState} {t d : Nat} : s.pc t = .idle → s.loc d = .owned t →
      ListStep s (.push t d) (s.setPc t (.pushLoad d))
  | pushLoad {s : ListState} {t d : Nat} : s.pc t = .pushLoad d →
      ListStep s (.pushLoad t) (s.setPc t (.pushStore d s.partialList))
  | pushStore {s : ListState} {t d : Nat} {oldHead : Option DescriptorNode} :
      s.pc t = .pushStore d oldHead →
      ListStep s (.pushStore t) ((s.setNextPartial d oldHead).setPc t (.pushCas d oldHead))
  | pushRet {s : ListState} {t d : Nat} {oldHead : Option DescriptorNode} :
      s.pc t = .pushCas d oldHead → s.partialList = oldHead →
      ListStep s (.pushRet t d)
        (({ s with partialList := some (pushNewHead d oldHead) }.setLoc d .listed).setPc t .idle)
  | pushRetry {s : ListState} {t d : Nat} {oldHead : Option DescriptorNode} :
      s.pc t = .pushCas d oldHead → ListStep s (.pushRetry t) (s.setPc t (.pushLoad d))

/-! ## The invariant -/

/-- The descriptor a link names. -/
def nodeDesc (n : Option DescriptorNode) : Option Nat := n.bind DescriptorNode.getDesc

/-- The descriptors on the list are `l`, in order. -/
def ListState.Is (s : ListState) (l : List Nat) : Prop :=
  Linked (fun d => nodeDesc (s.nextPartial d)) (nodeDesc s.partialList) l

/-- What a thread's locals say about the state. -/
def PcOk (s : ListState) (t : Nat) : Pc → Prop
  | .popNext oldHead d => oldHead.getDesc = some d
  | .popCas oldHead d _ => oldHead.getDesc = some d
  | .pushLoad d => s.loc d = .owned t
  | .pushStore d _ => s.loc d = .owned t
  | .pushCas d oldHead => s.loc d = .owned t ∧ s.nextPartial d = oldHead
  | _ => True

structure ListInv (s : ListState) (l : List Nat) : Prop where
  is : s.Is l
  nodup : l.Nodup
  listed : ∀ d, d ∈ l ↔ s.loc d = .listed
  addr : ∀ d, s.loc d ≠ .free → DescAddr d
  pcOk : ∀ t, PcOk s t (s.pc t)

/-- The guard a pop would need: what it installs is below the head now. -/
def PopOk (s : ListState) : ListOp → Prop
  | .popRet t d => ∀ oldHead newHead, s.pc t = .popCas oldHead d newHead →
      nodeDesc newHead = nodeDesc (s.nextPartial d)
  | _ => True

theorem setPc_same (s : ListState) (t : Nat) (p : Pc) : (s.setPc t p).pc t = p := if_pos rfl

theorem setPc_other (s : ListState) {t t' : Nat} (p : Pc) (h : t' ≠ t) :
    (s.setPc t p).pc t' = s.pc t' := if_neg h

theorem setLoc_same (s : ListState) (d : Nat) (x : Loc) : (s.setLoc d x).loc d = x := if_pos rfl

theorem setLoc_other (s : ListState) {d d' : Nat} (x : Loc) (h : d' ≠ d) :
    (s.setLoc d x).loc d' = s.loc d' := if_neg h

/-- A thread's locals only speak of descriptors it owns. -/
theorem PcOk.frame {s s' : ListState} {t : Nat} {p : Pc} (h : PcOk s t p)
    (hown : ∀ d, s.loc d = .owned t → s'.loc d = .owned t ∧ s'.nextPartial d = s.nextPartial d) :
    PcOk s' t p := by
  cases p with
  | pushLoad d => exact (hown d h).1
  | pushStore d _ => exact (hown d h).1
  | pushCas d oldHead => exact ⟨(hown d h.1).1, (hown d h.1).2.trans h.2⟩
  | _ => exact h

/-- A step that only moves thread `t`. -/
theorem ListInv.setPc {s : ListState} {l : List Nat} (h : ListInv s l) {t : Nat} {p : Pc}
    (hp : PcOk s t p) : ListInv (s.setPc t p) l := by
  refine ⟨h.is, h.nodup, h.listed, h.addr, fun t' => ?_⟩
  by_cases ht : t' = t
  · subst ht
    rw [setPc_same]
    exact hp.frame fun _ hd => ⟨hd, rfl⟩
  · rw [setPc_other _ _ ht]
    exact (h.pcOk t').frame fun _ hd => ⟨hd, rfl⟩

/-- Ownership that changes hands outside the list. -/
theorem ListInv.setLoc {s : ListState} {l : List Nat} (h : ListInv s l) {d : Nat} {x : Loc}
    (hold : s.loc d ≠ .listed) (hx : x ≠ .listed) (haddr : x ≠ .free → DescAddr d)
    (hpc : ∀ t, s.loc d = .owned t → PcOk (s.setLoc d x) t (s.pc t)) :
    ListInv (s.setLoc d x) l := by
  refine ⟨h.is, h.nodup, fun d' => ?_, fun d' hd' => ?_, fun t => ?_⟩
  · by_cases he : d' = d
    · subst he
      rw [setLoc_same, h.listed]
      exact ⟨fun hl => absurd hl hold, fun hl => absurd hl hx⟩
    · rw [setLoc_other _ _ he, h.listed]
  · by_cases he : d' = d
    · subst he
      rw [setLoc_same] at hd'
      exact haddr hd'
    · rw [setLoc_other _ _ he] at hd'
      exact h.addr d' hd'
  · by_cases ho : s.loc d = .owned t
    · exact hpc t ho
    · refine (h.pcOk t).frame fun d' hd' => ⟨?_, rfl⟩
      have he : d' ≠ d := fun he => ho (he ▸ hd')
      rw [setLoc_other _ _ he]
      exact hd'

/-- **The head goes to the popping thread**, provided the guard. -/
theorem ListInv.popRet {s : ListState} {l : List Nat} (h : ListInv s l) {t d : Nat}
    {oldHead : DescriptorNode} {newHead : Option DescriptorNode}
    (hpc : s.pc t = .popCas oldHead d newHead) (hhead : s.partialList = some oldHead)
    (hok : nodeDesc newHead = nodeDesc (s.nextPartial d)) :
    ∃ rest, l = d :: rest ∧
      ListInv (({ s with partialList := newHead }.setLoc d (.owned t)).setPc t .idle) rest := by
  have hdesc : oldHead.getDesc = some d := by
    have := h.pcOk t
    rw [hpc] at this
    exact this
  have his := h.is
  have htop : nodeDesc s.partialList = some d := by rw [hhead]; exact hdesc
  rw [ListState.Is, htop] at his
  cases l with
  | nil => cases his
  | cons x rest =>
    obtain ⟨hx, hrest⟩ := his
    cases hx
    have hlisted : s.loc d = .listed := (h.listed d).mp (List.mem_cons_self ..)
    have hnd := List.nodup_cons.mp h.nodup
    refine ⟨rest, rfl, ?_, hnd.2, fun d' => ?_, fun d' hd' => ?_, fun t' => ?_⟩
    · show Linked _ (nodeDesc newHead) rest
      rw [hok]
      exact hrest
    · show d' ∈ rest ↔ ListState.loc (ListState.setLoc _ d _) d' = .listed
      by_cases he : d' = d
      · subst he
        rw [setLoc_same]
        exact ⟨fun hmem => absurd hmem hnd.1, fun hl => by cases hl⟩
      · rw [setLoc_other _ _ he, ← h.listed d', List.mem_cons]
        exact ⟨Or.inr, fun hm => hm.resolve_left he⟩
    · by_cases he : d' = d
      · exact he ▸ h.addr d (by rw [hlisted]; exact fun hl => by cases hl)
      · refine h.addr d' ?_
        rwa [show s.loc d' = ListState.loc (ListState.setLoc _ d _) d' from
          (setLoc_other { s with partialList := newHead } _ he).symm]
    · by_cases ht : t' = t
      · subst ht
        rw [setPc_same]
        trivial
      · rw [setPc_other _ _ ht]
        refine (h.pcOk t').frame fun d' hd' => ⟨?_, rfl⟩
        have he : d' ≠ d := fun he => by rw [he, hlisted] at hd'; cases hd'
        exact (setLoc_other { s with partialList := newHead } _ he).trans hd'

/-- A push stores the link of a descriptor no other thread and no list has. -/
theorem ListInv.pushStore {s : ListState} {l : List Nat} (h : ListInv s l) {t d : Nat}
    {oldHead : Option DescriptorNode} (hpc : s.pc t = .pushStore d oldHead) :
    ListInv ((s.setNextPartial d oldHead).setPc t (.pushCas d oldHead)) l := by
  have hown : s.loc d = .owned t := by
    have := h.pcOk t
    rw [hpc] at this
    exact this
  refine ⟨?_, h.nodup, h.listed, h.addr, fun t' => ?_⟩
  · refine Linked.congr (fun x hx => ?_) h.is
    have hxd : x ≠ d := fun he => by
      have := (h.listed x).mp hx
      rw [he, hown] at this
      cases this
    show nodeDesc (s.nextPartial x) = nodeDesc (if x = d then oldHead else s.nextPartial x)
    rw [if_neg hxd]
  · by_cases ht : t' = t
    · subst ht
      rw [setPc_same]
      exact ⟨hown, if_pos rfl⟩
    · rw [setPc_other _ _ ht]
      refine (h.pcOk t').frame fun d' hd' => ⟨hd', if_neg fun he => ?_⟩
      rw [he, hown] at hd'
      exact ht (Loc.owned.inj hd').symm

/-- **The pushed descriptor becomes the head.** Here a head that went and came
back does no harm: it is the head that was linked below. -/
theorem ListInv.pushRet {s : ListState} {l : List Nat} (h : ListInv s l) {t d : Nat}
    (hpc : s.pc t = .pushCas d s.partialList) :
    ListInv (({ s with partialList := some (pushNewHead d s.partialList) }.setLoc d .listed).setPc
      t .idle) (d :: l) := by
  have hp := h.pcOk t
  rw [hpc] at hp
  obtain ⟨hown, hnext⟩ := hp
  have haddr : DescAddr d := h.addr d (by rw [hown]; exact fun hl => by cases hl)
  have hdl : d ∉ l := fun hmem => by
    have := (h.listed d).mp hmem
    rw [hown] at this
    cases this
  refine ⟨⟨getDesc_set haddr _, ?_⟩, List.nodup_cons.mpr ⟨hdl, h.nodup⟩, fun d' => ?_,
    fun d' hd' => ?_, fun t' => ?_⟩
  · show Linked _ (nodeDesc (s.nextPartial d)) l
    rw [hnext]
    exact h.is
  · show d' ∈ d :: l ↔ ListState.loc (ListState.setLoc _ d _) d' = .listed
    by_cases he : d' = d
    · subst he
      rw [setLoc_same]
      exact ⟨fun _ => rfl, fun _ => List.mem_cons_self ..⟩
    · rw [setLoc_other _ _ he, ← h.listed d', List.mem_cons]
      exact ⟨fun hm => hm.resolve_left he, Or.inr⟩
  · by_cases he : d' = d
    · exact he ▸ haddr
    · refine h.addr d' ?_
      rwa [show s.loc d' = ListState.loc (ListState.setLoc _ d _) d' from
        (setLoc_other { s with partialList := _ } _ he).symm]
  · by_cases ht : t' = t
    · subst ht
      rw [setPc_same]
      trivial
    · rw [setPc_other _ _ ht]
      refine (h.pcOk t').frame fun d' hd' => ⟨?_, rfl⟩
      have he : d' ≠ d := fun he => by
        rw [he, hown] at hd'
        exact ht (Loc.owned.inj hd').symm
      exact (setLoc_other { s with partialList := _ } _ he).trans hd'

/-- One atomic step keeps the invariant. -/
theorem listStep_inv {s s' : ListState} {op : ListOp} (h : ∃ l, ListInv s l)
    (hstep : ListStep s op s' ∧ PopOk s op) : ∃ l, ListInv s' l := by
  obtain ⟨l, h⟩ := h
  obtain ⟨hstep, hok⟩ := hstep
  cases hstep with
  | make haddr hfree =>
    refine ⟨l, h.setLoc ?_ (fun hl => by cases hl) (fun _ => haddr) fun t ho => ?_⟩
    · rw [hfree]
      exact fun hl => by cases hl
    · rw [hfree] at ho
      cases ho
  | @retire t d hpc hown =>
    refine ⟨l, h.setLoc ?_ (fun hl => by cases hl) (fun hne => absurd rfl hne) fun t' ho => ?_⟩
    · rw [hown]
      exact fun hl => by cases hl
    · rw [hown] at ho
      cases ho
      rw [hpc]
      trivial
  | pop _ => exact ⟨l, h.setPc trivial⟩
  | popEmpty _ _ => exact ⟨l, h.setPc trivial⟩
  | popLoad _ _ hdesc => exact ⟨l, h.setPc hdesc⟩
  | @popNext t d oldHead newHead hpc hnext =>
    have hp := h.pcOk t
    rw [hpc] at hp
    exact ⟨l, h.setPc hp⟩
  | popRet hpc hhead =>
    obtain ⟨rest, -, hrest⟩ := h.popRet hpc hhead (hok _ _ hpc)
    exact ⟨rest, hrest⟩
  | popRetry _ => exact ⟨l, h.setPc trivial⟩
  | push _ hown => exact ⟨l, h.setPc hown⟩
  | @pushLoad t d hpc =>
    have hp := h.pcOk t
    rw [hpc] at hp
    exact ⟨l, h.setPc hp⟩
  | pushStore hpc => exact ⟨l, h.pushStore hpc⟩
  | pushRet hpc hhead =>
    subst hhead
    exact ⟨_, h.pushRet hpc⟩
  | @pushRetry t d oldHead hpc =>
    have hp := h.pcOk t
    rw [hpc] at hp
    exact ⟨l, h.setPc hp.1⟩

theorem listInv_init : ListInv ListState.init [] :=
  ⟨rfl, List.nodup_nil, fun _ => ⟨fun h => (List.not_mem_nil h).elim, fun h => by cases h⟩,
    fun _ h => absurd rfl h, fun _ => trivial⟩

/-- A whole push of thread `t`. -/
def pushOps (t d : Nat) : List ListOp := [.push t d, .pushLoad t, .pushStore t, .pushRet t d]

/-- A whole pop of thread `t` up to its compare-exchange. -/
def popOps (t : Nat) : List ListOp := [.pop t, .popLoad t, .popNext t]

/-- The part of the state one heap's list lives in. -/
def ListState.Views (ls : ListState) (s : State) (c : Nat) : Prop :=
  ls.partialList = s.partialList c ∧ ∀ d, ls.nextPartial d = (s.descs d).nextPartial

theorem listPushPartial_solo {s s' : State} {ls : ListState} {c t d : Nat}
    (hv : ls.Views s c) (hpc : ls.pc t = .idle) (hown : ls.loc d = .owned t)
    (hheap : (s.descs d).procHeap = some c) (h : listPushPartial d s = some s') :
    ∃ ls', Run ListStep ls (pushOps t d) ls' ∧ ls'.Views s' c := by
  obtain ⟨hhead, hnext⟩ := hv
  simp only [listPushPartial, hheap, Option.bind_eq_bind, Option.bind_some,
    Option.some.injEq] at h
  refine ⟨_, .cons (.push hpc hown) (.cons (.pushLoad (setPc_same ..))
    (.cons (.pushStore (setPc_same ..)) (.cons (.pushRet (setPc_same ..) rfl) (.nil _)))), ?_, ?_⟩
  · subst h
    show some (pushNewHead d ls.partialList) = _
    rw [hhead]
    exact (if_pos rfl).symm
  · intro d'
    subst h
    show (if d' = d then ls.partialList else ls.nextPartial d') = _
    by_cases he : d' = d
    · subst he
      rw [if_pos rfl, hhead, setPartialList_descs, setDesc_same]
    · rw [if_neg he, hnext, setPartialList_descs, setDesc_other _ _ _ he]

theorem listPopPartial_solo {s s' : State} {ls : ListState} {c t d : Nat}
    (hv : ls.Views s c) (hpc : ls.pc t = .idle) (h : listPopPartial c s = some (some d, s')) :
    ∃ ls', Run ListStep ls (popOps t ++ [.popRet t d]) ls' ∧ ls'.Views s' c := by
  obtain ⟨hhead, hnext⟩ := hv
  unfold listPopPartial at h
  cases hl : s.partialList c with
  | none => rw [hl] at h; cases h
  | some oldHead =>
    rw [hl] at h hhead
    simp only [Option.bind_eq_bind, Option.bind_eq_some_iff, Option.some.injEq,
      Prod.mk.injEq] at h
    obtain ⟨oldDesc, hdesc, newHead, hnew, hd, rfl⟩ := h
    subst hd
    rw [← hnext] at hnew
    refine ⟨_, .cons (.pop hpc) (.cons (.popLoad (setPc_same ..) hhead hdesc)
      (.cons (.popNext (setPc_same ..) hnew) (.cons (.popRet (setPc_same ..) hhead) (.nil _)))),
      (if_pos rfl).symm, hnext⟩

end Apfmalloc
