import Apfmalloc.AnchorRun

/-!
# Where descriptors are

Between two calls a descriptor that was ever handed out owns a superblock, or is on
the partial list of its heap, or is back on the list at `AVAILABLE_DESC`.

`Books` follows all of them, with a list of those that are nowhere. Whether the
blocks of a bin are what they should be plays no part in it, so it is kept by every
call on any memory and any page map. The only one that puts a descriptor on the
list of the lost is `flush_cache`, in the round that hands back all blocks of a full
superblock at once: the superblock goes back to the kernel, but its descriptor was
on no partial list and is not retired.
-/

namespace Apfmalloc

open Base

/-! ## The three places -/

def OnPartial (s : State) (d : Nat) : Prop :=
  ∃ c l, (s.descs d).procHeap = some c ∧ PartialLinked s (s.partialList c) l ∧ d ∈ l

def OnAvailable (s : State) (d : Nat) : Prop :=
  ∃ l, Linked (freeNext s) s.availableDesc.getDesc l ∧ d ∈ l

def Accounted (s : State) (d : Nat) : Prop :=
  (∃ seg, Owns s d seg) ∨ OnPartial s d ∨ OnAvailable s d

/-! ## The books -/

/-- A descriptor on the partial list of class `c`: partly free, or released. -/
structure InList (s : State) (alloced : List Nat) (c d : Nat) : Prop where
  alloced : d ∈ alloced
  heap : (s.descs d).procHeap = some c
  state : ((s.descs d).anchor.state = .partly ∧ ∃ sg, Owns s d sg) ∨
    ((s.descs d).anchor.state = .empty ∧ (s.descs d).superBlock = none)

/-- The owner of a segment: full and on no list, or partly free and on one. -/
structure OwnerOk (s : State) (alloced : List Nat) (P : Nat → List Nat) (d : Nat) (sg : Segment) :
    Prop where
  alloced : d ∈ alloced
  valid : sg.Valid
  mapped : sg ∈ s.mapped
  carved : ∀ x ∈ s.carved, x < sg.ptr ∨ sg.ptr + regionLen sg.length ≤ x
  small : ∀ c, (s.descs d).procHeap = some c → (s.descs d).blockSize ≤ maxSz
  state : ((s.descs d).anchor.state = .full ∧ (s.descs d).anchor.count = 0 ∧ ∀ c, d ∉ P c) ∨
    ((s.descs d).anchor.state = .partly ∧ ∃ c, d ∈ P c)

structure Books (s : State) (alloced free : List Nat) (P : Nat → List Nat) (lost : List Nat) :
    Prop where
  desc : DescInv s alloced free
  owner : ∀ {d sg}, Owns s d sg → OwnerOk s alloced P d sg
  apart : ∀ {d sg d' sg'}, Owns s d sg → Owns s d' sg' → d ≠ d' → sg.Apart sg'
  linked : ∀ c, PartialLinked s (s.partialList c) (P c)
  nodup : ∀ c, (P c).Nodup
  listed : ∀ {c d}, d ∈ P c → InList s alloced c d
  placed : ∀ d ∈ alloced, (∃ sg, Owns s d sg) ∨ (∃ c, d ∈ P c) ∨ d ∈ lost

section Books

variable {s s' : State} {alloced alloced' free free' lost lost' : List Nat} {P P' : Nat → List Nat}

theorem Books.addr (h : Books s alloced free P lost) {d : Nat} (hd : d ∈ alloced) : DescAddr d :=
  h.desc.addr d (h.desc.alloced_carved hd)

/-- With nothing lost every carved descriptor is accounted for. -/
theorem Books.accounted (h : Books s alloced free P []) {d : Nat} (hd : d ∈ s.carved) :
    Accounted s d := by
  rcases List.mem_append.mp (h.desc.perm.mem_iff.mpr hd) with hd | hd
  · -- handed out: it has a place, and nothing is lost
    rcases h.placed d hd with ho | ⟨c, hc⟩ | hl
    · exact Or.inl ho
    · exact Or.inr (Or.inl ⟨c, P c, (h.listed hc).heap, h.linked c, hc⟩)
    · exact (List.not_mem_nil hl).elim
  · exact Or.inr (Or.inr ⟨free, h.desc.linked, hd⟩)

/-- A descriptor in use that owns nothing and whose heap has no partial list is
nowhere. -/
theorem Books.not_accounted (h : Books s alloced free P lost) {d c : Nat} (hd : d ∈ alloced)
    (hnone : (s.descs d).superBlock = none) (hheap : (s.descs d).procHeap = some c)
    (hlist : s.partialList c = none) : ¬Accounted s d := by
  intro hacc
  rcases hacc with ⟨sg, ho⟩ | ⟨c', l, hheap', hlink, hmem⟩ | ⟨l, hlink, hmem⟩
  · rw [Owns, hnone] at ho
    cases ho
  · obtain rfl : c = c' := Option.some.inj (hheap.symm.trans hheap')
    rw [hlist] at hlink
    obtain rfl : l = [] := hlink.unique rfl
    exact List.not_mem_nil hmem
  · -- the free list and the descriptors in use have none in common
    rw [hlink.unique h.desc.linked] at hmem
    exact (List.nodup_append.mp h.desc.nodup_append).2.2 d hd d hmem rfl

/-! ## Steps that touch no descriptor in use -/

/-- New mappings and new descriptors; a descriptor that is handed out belongs to
nothing yet. -/
theorem Books.grow (h : Books s alloced free P lost) (hdesc : DescInv s' alloced' free')
    (hsame : ∀ d ∈ s.carved, s'.descs d = s.descs d)
    (howns : ∀ {d sg}, Owns s' d sg → Owns s d sg) (hlist : s'.partialList = s.partialList)
    (hmapped : ∀ sg ∈ s.mapped, sg ∈ s'.mapped)
    (hcarved : ∀ x ∈ s'.carved, x ∈ s.carved ∨
      ∀ sg ∈ s.mapped, x < sg.ptr ∨ sg.ptr + regionLen sg.length ≤ x)
    (hal : ∀ d ∈ alloced, d ∈ alloced') (hlost : ∀ d ∈ lost, d ∈ lost')
    (hnew : ∀ d ∈ alloced', d ∈ alloced ∨ d ∈ lost') : Books s' alloced' free' P lost' := by
  have hdescs : ∀ d ∈ alloced, s'.descs d = s.descs d :=
    fun d hd => hsame d (h.desc.alloced_carved hd)
  have howns' : ∀ {d sg}, d ∈ alloced → Owns s d sg → Owns s' d sg := by
    intro d sg hd ho
    rw [Owns, hdescs d hd]
    exact ho
  refine ⟨hdesc, fun {d sg} ho => ?_, fun ho ho' => h.apart (howns ho) (howns ho'), fun c => ?_,
    h.nodup, fun {c d} hd => ?_, fun d hd => ?_⟩
  · have hk := h.owner (howns ho)
    have he := hdescs d hk.alloced
    refine ⟨hal d hk.alloced, hk.valid, hmapped sg hk.mapped, fun x hx => ?_, ?_, ?_⟩
    · rcases hcarved x hx with hx | hx
      · exact hk.carved x hx
      · exact hx sg hk.mapped
    · rw [he]
      exact hk.small
    · rw [he]
      exact hk.state
  · rw [hlist]
    exact (h.linked c).congr fun d hd => by rw [hdescs d (h.listed hd).alloced]
  · have hl := h.listed hd
    have he := hdescs d hl.alloced
    refine ⟨hal d hl.alloced, by rw [he]; exact hl.heap, ?_⟩
    unfold Owns
    rw [he]
    exact hl.state
  · rcases hnew d hd with hd' | hl
    · rcases h.placed d hd' with ⟨sg, ho⟩ | hc | hl
      · exact Or.inl ⟨sg, howns' hd' ho⟩
      · exact Or.inr (Or.inl hc)
      · exact Or.inr (Or.inr (hlost d hl))
    · exact Or.inr (Or.inr hl)

/-- What neither touches a descriptor nor a list. -/
theorem Books.other (h : Books s alloced free P lost) (hdescs : s'.descs = s.descs)
    (hlist : s'.partialList = s.partialList) (havail : s'.availableDesc = s.availableDesc)
    (hcarved : s'.carved = s.carved) (hmapped : ∀ sg ∈ s.mapped, sg ∈ s'.mapped) :
    Books s' alloced free P lost := by
  refine h.grow ?_ (fun d _ => by rw [hdescs]) (fun ho => ?_) hlist hmapped
    (fun x hx => Or.inl (hcarved ▸ hx)) (fun _ hd => hd) (fun _ hd => hd) fun _ hd => Or.inl hd
  · refine h.desc.frame havail (fun d _ => by rw [hdescs]) hcarved fun d _ hm => ?_
    obtain ⟨sg, hsg, hin⟩ := hm
    exact ⟨sg, hmapped sg hsg, hin⟩
  · rw [Owns, hdescs] at ho
    exact ho

/-- **`Descriptor::alloc`**: the descriptor is in nobody's hands but the caller's. -/
theorem Books.alloc {cfg : Cfg} {os : Os} {d : Nat} (h : Books s alloced free P lost)
    (halloc : Descriptor.alloc cfg os s = some (d, s')) :
    ∃ free', Books s' (d :: alloced) free' P (d :: lost) ∧ AllocFrame s s' ∧ (∀ c, d ∉ P c) ∧
      ∀ sg, ¬Owns s' d sg := by
  obtain ⟨hnew, hf, free', hdesc⟩ := h.desc.alloc halloc
  have hso := hf.sameOwners fun ho => h.desc.alloced_carved (h.owner ho).alloced
  refine ⟨free', ?_, hf, fun c hd => hnew (h.listed hd).alloced,
    fun sg ho => hnew (h.owner ((hso.owns d sg).mp ho)).alloced⟩
  refine h.grow hdesc hf.descs (fun ho => (hso.owns _ _).mp ho) hf.partialList hf.mapped
    hf.carvedOut (fun _ hd => List.mem_cons_of_mem _ hd) (fun _ hd => List.mem_cons_of_mem _ hd)
    fun x hx => ?_
  rcases List.mem_cons.mp hx with rfl | hx
  · exact Or.inr (List.mem_cons_self ..)
  · exact Or.inl hx

/-! ## Steps on one descriptor -/

/-- Descriptor `d` changes its state and its place; the others stay what and where
they are. -/
theorem Books.change (h : Books s alloced free P lost) {d : Nat} (hdesc : DescInv s' alloced' free')
    (hother : ∀ d', d' ≠ d → s'.descs d' = s.descs d') (hcarved : s'.carved = s.carved)
    (hmapped : ∀ {d' sg}, d' ≠ d → Owns s d' sg → sg ∈ s'.mapped)
    (hal : ∀ d', d' ≠ d → (d' ∈ alloced' ↔ d' ∈ alloced))
    (hP : ∀ c d', d' ≠ d → (d' ∈ P' c ↔ d' ∈ P c)) (hlost : ∀ x ∈ lost, x ≠ d → x ∈ lost')
    (hlinked : ∀ c, PartialLinked s' (s'.partialList c) (P' c)) (hnodup : ∀ c, (P' c).Nodup)
    (hlisted : ∀ {c}, d ∈ P' c → InList s' alloced' c d)
    (howner : ∀ {sg}, Owns s' d sg → OwnerOk s' alloced' P' d sg)
    (hapart : ∀ {sg d' sg'}, Owns s' d sg → d' ≠ d → Owns s d' sg' → sg.Apart sg')
    (hplaced : d ∈ alloced' → (∃ sg, Owns s' d sg) ∨ (∃ c, d ∈ P' c) ∨ d ∈ lost') :
    Books s' alloced' free' P' lost' := by
  have howns : ∀ {d' sg}, d' ≠ d → (Owns s' d' sg ↔ Owns s d' sg) := by
    intro d' sg hne
    rw [Owns, Owns, hother d' hne]
  refine ⟨hdesc, fun {d' sg} ho => ?_, fun {d₁ sg₁ d₂ sg₂} h₁ h₂ hne => ?_, hlinked, hnodup,
    fun {c d'} hd' => ?_, fun d' hd' => ?_⟩
  · by_cases hd : d' = d
    · subst hd
      exact howner ho
    · have hk := h.owner ((howns hd).mp ho)
      refine ⟨(hal d' hd).mpr hk.alloced, hk.valid, hmapped hd ((howns hd).mp ho),
        by rw [hcarved]; exact hk.carved, by rw [hother d' hd]; exact hk.small, ?_⟩
      rw [hother d' hd]
      refine hk.state.imp (fun hst => ⟨hst.1, hst.2.1, fun c hc => ?_⟩) fun hst => ⟨hst.1, ?_⟩
      · exact hst.2.2 c ((hP c d' hd).mp hc)
      · obtain ⟨c, hc⟩ := hst.2
        exact ⟨c, (hP c d' hd).mpr hc⟩
  · -- two segments: at most one of them is of `d`
    by_cases hd₁ : d₁ = d
    · subst hd₁
      exact hapart h₁ (Ne.symm hne) ((howns (Ne.symm hne)).mp h₂)
    · by_cases hd₂ : d₂ = d
      · subst hd₂
        exact (hapart h₂ hd₁ ((howns hd₁).mp h₁)).symm
      · exact h.apart ((howns hd₁).mp h₁) ((howns hd₂).mp h₂) hne
  · by_cases hd : d' = d
    · subst hd
      exact hlisted hd'
    · have hl := h.listed ((hP c d' hd).mp hd')
      refine ⟨(hal d' hd).mpr hl.alloced, by rw [hother d' hd]; exact hl.heap, ?_⟩
      unfold Owns
      rw [hother d' hd]
      exact hl.state
  · by_cases hd : d' = d
    · subst hd
      exact hplaced hd'
    · rcases h.placed d' ((hal d' hd).mp hd') with ⟨sg, ho⟩ | ⟨c, hc⟩ | hl
      · exact Or.inl ⟨sg, (howns hd).mpr ho⟩
      · exact Or.inr (Or.inl ⟨c, (hP c d' hd).mpr hc⟩)
      · exact Or.inr (Or.inr (hlost d' hl hd))

/-- **A new owner**: full, with no block free. -/
theorem Books.own {d : Nat} {seg : Segment} (h : Books s alloced free P (d :: lost))
    (ha : AddsRegion s s' d seg) (hlist : s'.partialList = s.partialList) (hd : d ∈ alloced)
    (hnot : ∀ c, d ∉ P c) (hfull : (s'.descs d).anchor.state = .full)
    (hcount : (s'.descs d).anchor.count = 0)
    (hsmall : ∀ c, (s'.descs d).procHeap = some c → (s'.descs d).blockSize ≤ maxSz) :
    Books s' alloced free P lost := by
  refine h.change (ha.descInv h.desc) ha.descs ha.carved (fun _ ho => ?_) (fun _ _ => Iff.rfl)
    (fun _ _ _ => Iff.rfl) (fun x hx hne => ?_) (fun c => ?_) h.nodup
    (fun hc => absurd hc (hnot _)) (fun {sg} ho => ?_) (fun {sg _ _} ho _ ho' => ?_)
    fun _ => Or.inl ⟨seg, ha.owns⟩
  · rw [ha.mapped]
    exact (h.owner ho).mapped
  · exact (List.mem_cons.mp hx).resolve_left hne
  · rw [hlist]
    exact (h.linked c).congr fun d' hd' => by rw [ha.descs d' fun he => hnot c (he ▸ hd')]
  · obtain rfl := ho.unique ha.owns
    exact ⟨hd, ha.valid, by rw [ha.mapped]; exact ha.segMapped, by rw [ha.carved]; exact ha.carvedOut,
      hsmall, Or.inl ⟨hfull, hcount, hnot⟩⟩
  · obtain rfl := ho.unique ha.owns
    exact ha.apart ho'

/-! ## Off the partial list -/

/-- A listed descriptor is on one list only, once. -/
theorem Books.not_tailOf (h : Books s alloced free P lost) {c d : Nat} {l : List Nat}
    (hP : P c = d :: l) (c' : Nat) : d ∉ tailOf P c c' := by
  intro hd
  by_cases hc : c' = c
  · subst hc
    rw [tailOf, if_pos rfl, hP] at hd
    exact (List.nodup_cons.mp (hP ▸ h.nodup c')).1 hd
  · have hheap := (h.listed (mem_tailOf hd)).heap
    rw [(h.listed (c := c) (by rw [hP]; exact List.mem_cons_self ..)).heap] at hheap
    exact hc (Option.some.inj hheap).symm

theorem mem_tailOf_iff {c d d' : Nat} {l : List Nat} (hP : P c = d :: l) (hne : d' ≠ d) (c' : Nat) :
    d' ∈ tailOf P c c' ↔ d' ∈ P c' := by
  refine ⟨mem_tailOf, fun hd => ?_⟩
  unfold tailOf
  split
  next hc =>
    rw [hc, hP] at hd
    rw [hP]
    exact (List.mem_cons.mp hd).resolve_left hne
  next => exact hd

/-- The first descriptor of a list is popped and becomes free, or full. -/
theorem Books.popped (h : Books s alloced free P lost) {c d : Nat} {l : List Nat}
    {head : Option DescriptorNode} (hP : P c = d :: l) (hhead : PartialLinked s head l)
    (hdesc : DescInv s' alloced' free')
    (hlist : s'.partialList = (s.setPartialList c head).partialList)
    (hother : ∀ d', d' ≠ d → s'.descs d' = s.descs d') (hcarved : s'.carved = s.carved)
    (hmapped : s'.mapped = s.mapped) (hal : ∀ d', d' ≠ d → (d' ∈ alloced' ↔ d' ∈ alloced))
    (hself : (d ∉ alloced' ∧ ∀ sg, ¬Owns s' d sg) ∨
      (d ∈ alloced' ∧ ∃ sg, Owns s d sg ∧ s'.descs d =
        { s.descs d with anchor := (s'.descs d).anchor } ∧ (s'.descs d).anchor.state = .full ∧
        (s'.descs d).anchor.count = 0)) :
    Books s' alloced' free' (tailOf P c) lost := by
  have hnot := h.not_tailOf hP
  refine h.change hdesc hother hcarved (fun _ ho => ?_) hal
    (fun c' d' hne => mem_tailOf_iff hP hne c') (fun _ hx _ => hx) (fun c' => ?_) (fun c' => ?_)
    (fun hd => absurd hd (hnot _)) (fun {sg} ho => ?_) (fun {sg d' sg'} ho hne ho' => ?_)
    fun hd => ?_
  · rw [hmapped]
    exact (h.owner ho).mapped
  · refine PartialLinked.congr (s := s)
      (fun d' hd' => by rw [hother d' fun he => hnot c' (he ▸ hd')]) ?_
    rw [hlist, tailOf]
    show PartialLinked s (if c' = c then head else s.partialList c') _
    by_cases hc : c' = c
    · subst hc
      rw [if_pos rfl, if_pos rfl, hP]
      exact hhead
    · rw [if_neg hc, if_neg hc]
      exact h.linked c'
  · unfold tailOf
    split
    next => exact (h.nodup c).tail
    next => exact h.nodup c'
  · rcases hself with ⟨-, hno⟩ | ⟨hd, sg', ho', he, hfull, hcount⟩
    · exact absurd ho (hno sg)
    · obtain rfl : sg = sg' := by
        rw [Owns, he] at ho
        exact Owns.unique (s := s) ho ho'
      have hk := h.owner ho'
      refine ⟨hd, hk.valid, by rw [hmapped]; exact hk.mapped, by rw [hcarved]; exact hk.carved, ?_,
        Or.inl ⟨hfull, hcount, hnot⟩⟩
      rw [he]
      exact hk.small
  · rcases hself with ⟨-, hno⟩ | ⟨-, sg'', ho'', he, -⟩
    · exact absurd ho (hno sg)
    · rw [Owns, he] at ho
      exact h.apart ho ho' (Ne.symm hne)
  · rcases hself with ⟨hnd, -⟩ | ⟨-, sg, ho, he, -⟩
    · exact absurd hd hnd
    · refine Or.inl ⟨sg, ?_⟩
      rw [Owns, he]
      exact ho

/-- Retiring puts a descriptor on the free list. -/
theorem DescInv.retire_erase (h : DescInv s alloced free) {d : Nat} (hd : d ∈ alloced) :
    DescInv (Descriptor.retire d s) (alloced.erase d) (d :: free) ∧ d ∉ alloced.erase d := by
  refine ⟨(h.perm_alloced (List.perm_cons_erase hd)).retire, ?_⟩
  have hnd : alloced.Nodup := (List.nodup_append.mp h.nodup_append).1
  exact fun hmem => (hnd.mem_erase_iff.mp hmem).1 rfl

/-- **`malloc_from_partial`**, by induction on its rounds: released descriptors are
retired, the first one with a superblock becomes full. -/
theorem Books.mallocFromPartialLoop {t c : Nat} :
    ∀ (fuel : Nat) {s : State} {alloced free : List Nat} {P : Nat → List Nat} {n : Nat},
      Books s alloced free P lost → mallocFromPartialLoop t c fuel s = some (n, s') →
      ∃ alloced' free' P', Books s' alloced' free' P' lost ∧ s'.carved = s.carved := by
  intro fuel
  induction fuel with
  | zero => intro s alloced free P n _ hloop; cases hloop
  | succ fuel ih =>
    intro s alloced free P n h hloop
    cases hP : P c with
    | nil =>
      have hhead : s.partialList c = none := by
        have := h.linked c
        rw [hP] at this
        exact this
      rw [mallocFromPartialLoop_none (listPopPartial_none hhead)] at hloop
      simp only [Option.some.injEq, Prod.mk.injEq] at hloop
      obtain ⟨-, rfl⟩ := hloop
      exact ⟨alloced, free, P, h, rfl⟩
    | cons d l =>
      have hl := h.listed (c := c) (d := d) (by rw [hP]; exact List.mem_cons_self ..)
      have hlink := h.linked c
      rw [hP] at hlink
      obtain ⟨head, hpop, hhead⟩ := hlink.pop fun x hx =>
        h.addr (h.listed (c := c) (by rw [hP]; exact List.mem_cons_of_mem _ hx)).alloced
      rcases hl.state with ⟨hst, sg, ho⟩ | ⟨hst, hnone⟩
      · -- a superblock: its descriptor is full from now on
        have hne : ((s.setPartialList c head).descs d).anchor.state ≠ .empty := by
          rw [setPartialList_descs, hst]
          exact fun he => by cases he
        rw [mallocFromPartialLoop_take hpop hne] at hloop
        obtain ⟨-, bin, -, -, -, -, rfl⟩ := takeList_cases hloop
        refine ⟨alloced, free, tailOf P c, h.popped hP hhead ?_ rfl (fun d' hd => ?_) rfl rfl
          (fun _ _ => Iff.rfl) (Or.inr ⟨hl.alloced, sg, ho, ?_, ?_, ?_⟩), rfl⟩
        · refine h.desc.frame rfl (fun d' _ => ?_) rfl fun _ _ hm => hm
          rw [setBin_descs, State.setAnchor]
          by_cases hd : d' = d
          · rw [hd, setDesc_same]
            rfl
          · rw [setDesc_other _ _ _ hd]
            rfl
        · rw [setBin_descs, State.setAnchor, setDesc_other _ _ _ hd]
          rfl
        · rw [setBin_descs, State.setAnchor, setDesc_same]
          rfl
        · rw [setBin_descs, State.setAnchor, setDesc_same]
          rfl
        · rw [setBin_descs, State.setAnchor, setDesc_same]
          rfl
      · -- a released one is retired
        rw [mallocFromPartialLoop_retire hpop hst] at hloop
        have hdesc : DescInv (s.setPartialList c head) alloced free :=
          h.desc.frame rfl (fun _ _ => rfl) rfl fun _ _ hm => hm
        obtain ⟨hret, hgone⟩ := hdesc.retire_erase hl.alloced
        have h₁ := h.popped hP hhead hret rfl (fun d' hne => retire_other _ hne) rfl rfl
          (fun d' hne => List.mem_erase_of_ne hne) (Or.inl ⟨hgone, fun sg ho => by
            rw [Owns, retire_superBlock] at ho
            exact absurd (hnone.symm.trans ho) fun he => by cases he⟩)
        obtain ⟨alloced', free', P', h', hcarved⟩ := ih h₁ hloop
        exact ⟨alloced', free', P', h', hcarved⟩

/-! ## Rounds of a flush -/

theorem flushAnchor_partly {old : Anchor} {n i k : Nat}
    (hne : (flushAnchor old n i k).state ≠ .empty) : (flushAnchor old n i k).state = .partly := by
  cases hs : (flushAnchor old n i k).state with
  | partly => rfl
  | empty => exact absurd hs hne
  | full =>
    unfold flushAnchor at hs
    simp only [Anchor.setAvail, Anchor.setState, Anchor.setCount] at hs
    by_cases hk : old.count + k = n
    · simp only [hk, if_true] at hs
      cases hs
    · by_cases hf : old.state = .full
      · simp only [hk, if_false, hf, if_true] at hs
        cases hs
      · simp only [hk, if_false, hf] at hs

/-- How many blocks the next round of a flush hands back to `seg`. -/
def runLength (cfg : Cfg) (t c : Nat) (seg : Segment) (s : State) : Nat :=
  (flushRun s.mem seg.ptr (cfg.sizeClass c).sbSize ((s.threadCache t c).blockNum - 1) 1
    (s.threadCache t c).block).1

theorem flushRound_cases {cfg : Cfg} {t c d : Nat} (h : flushRound cfg t c d s = some s') :
    ∃ seg i bin tail next, Owns s d seg ∧
      flushRelease cfg c d seg (s.descs d).anchor
        (flushAnchor (s.descs d).anchor (s.descs d).maxCount i (runLength cfg t c seg s))
        (s.flushTo t c d bin tail next
          (flushAnchor (s.descs d).anchor (s.descs d).maxCount i (runLength cfg t c seg s))) =
        some s' := by
  simp only [flushRound, Option.bind_eq_bind, Option.bind_eq_some_iff] at h
  obtain ⟨seg, ho, bin, -, i, -, h⟩ := h
  exact ⟨seg, i, bin, _, _, ho, h⟩

theorem flushRelease_cases {cfg : Cfg} {c d : Nat} {seg : Segment} {old new : Anchor}
    (h : flushRelease cfg c d seg old new s = some s') :
    (new.state = .empty ∧ ∃ pm, s' = segDeallocate seg ({ s with pageMap := pm }.setDesc d
      { s.descs d with superBlock := none })) ∨
    (new.state ≠ .empty ∧ old.state = .full ∧
      ∃ c', (s.descs d).procHeap = some c' ∧ s' = s.pushPartial c' d) ∨
    (new.state ≠ .empty ∧ old.state ≠ .full ∧ s' = s) := by
  unfold flushRelease at h
  split at h
  next he =>
    simp only [Option.bind_eq_bind, Option.bind_eq_some_iff, Option.some.injEq, unregisterDesc,
      updatePageMap] at h
    obtain ⟨s₁, h₁, rfl⟩ := h
    split at h₁
    next => cases h₁
    next =>
      split at h₁
      next => cases h₁
      next =>
        cases h₁
        exact Or.inl ⟨he, _, rfl⟩
  next he =>
    split at h
    next hf =>
      simp only [listPushPartial, Option.bind_eq_bind, Option.bind_eq_some_iff,
        Option.some.injEq] at h
      obtain ⟨c', hc', rfl⟩ := h
      exact Or.inr (Or.inl ⟨he, hf, c', hc', rfl⟩)
    next hf => exact Or.inr (Or.inr ⟨he, hf, (Option.some.inj h).symm⟩)

/-- Unmapping the segment of `d` leaves the other segments and the descriptor
blocks mapped. -/
theorem Books.unmap (h : Books s alloced free P lost) {d : Nat} {seg : Segment} (ho : Owns s d seg)
    (hmapped : s'.mapped = s.mapped.erase seg) :
    (∀ {d' sg}, d' ≠ d → Owns s d' sg → sg ∈ s'.mapped) ∧
      ∀ x ∈ s.carved, InMapped s x → InMapped s' x := by
  rw [hmapped]
  refine ⟨fun {d' sg} hne ho' => ?_, fun x hx hm => ?_⟩
  · refine (List.mem_erase_of_ne fun he => ?_).mpr (h.owner ho').mapped
    -- the segment of one owner is apart from that of another, so it is not the one unmapped
    subst he
    exact (h.owner ho).valid.not_apart_self (h.apart ho' ho hne)
  · obtain ⟨sg, hsg, hlo, hhi⟩ := hm
    refine ⟨sg, ?_, hlo, hhi⟩
    rw [hmapped]
    refine (List.mem_erase_of_ne fun he => ?_).mpr hsg
    subst he
    have := (h.owner ho).carved x hx
    omega

/-- **Releasing a superblock.** A descriptor on a partial list stays there; one that
was full is lost. -/
theorem Books.release (h : Books s alloced free P lost) {d : Nat} {seg : Segment} {a : Anchor}
    (ho : Owns s d seg) (hempty : a.state = .empty)
    (hother : ∀ d', d' ≠ d → s'.descs d' = s.descs d')
    (hself : s'.descs d = { s.descs d with anchor := a, superBlock := none })
    (hlist : s'.partialList = s.partialList) (havail : s'.availableDesc = s.availableDesc)
    (hcarved : s'.carved = s.carved) (hmapped : s'.mapped = s.mapped.erase seg)
    (hsub : ∀ x ∈ lost, x ∈ lost') (hlost : (s.descs d).anchor.state = .full → d ∈ lost') :
    Books s' alloced free P lost' := by
  have hnone : (s'.descs d).superBlock = none := by rw [hself]
  have hno : ∀ sg, ¬Owns s' d sg := fun sg ho' => by
    rw [Owns, hnone] at ho'
    cases ho'
  obtain ⟨hmap, hin⟩ := h.unmap ho hmapped
  have hlinks : ∀ d', (s'.descs d').nextFree = (s.descs d').nextFree ∧
      (s'.descs d').nextPartial = (s.descs d').nextPartial := by
    intro d'
    by_cases hd : d' = d
    · rw [hd, hself]
      exact ⟨rfl, rfl⟩
    · rw [hother d' hd]
      exact ⟨rfl, rfl⟩
  refine h.change (h.desc.frame havail (fun d' _ => (hlinks d').1) hcarved hin) hother hcarved hmap
    (fun _ _ => Iff.rfl) (fun _ _ _ => Iff.rfl) (fun x hx _ => hsub x hx) (fun c => ?_) h.nodup
    (fun hc => ⟨(h.owner ho).alloced, ?_, Or.inr ⟨?_, hnone⟩⟩) (fun ho' => absurd ho' (hno _))
    (fun ho' => absurd ho' (hno _)) fun _ => ?_
  · rw [hlist]
    exact (h.linked c).congr fun d' _ => (hlinks d').2
  · rw [hself]
    exact (h.listed hc).heap
  · rw [hself]
    exact hempty
  · -- A partly free one was on its list already, and stays there EMPTY until it is popped.
    rcases (h.owner ho).state with ⟨hf, -⟩ | ⟨-, hc⟩
    · exact Or.inr (Or.inr (hlost hf))
    · exact Or.inr (Or.inl hc)

/-- An owner whose anchor changes is on the lists as before if it was partly free,
and joins the list of its heap if it was full. -/
theorem Books.partly (h : Books s alloced free P lost) {d : Nat} {seg : Segment}
    {a : Anchor} {next : Option DescriptorNode} (ho : Owns s d seg) (hpartly : a.state = .partly)
    (hother : ∀ d', d' ≠ d → s'.descs d' = s.descs d')
    (hself : s'.descs d = { s.descs d with anchor := a, nextPartial := next })
    (havail : s'.availableDesc = s.availableDesc) (hcarved : s'.carved = s.carved)
    (hmapped : s'.mapped = s.mapped) (hP : ∀ c d', d' ≠ d → (d' ∈ P' c ↔ d' ∈ P c))
    (hlinked : ∀ c, PartialLinked s' (s'.partialList c) (P' c)) (hnodup : ∀ c, (P' c).Nodup)
    (hheap : ∀ {c}, d ∈ P' c → (s.descs d).procHeap = some c) (hmem : ∃ c, d ∈ P' c) :
    Books s' alloced free P' lost := by
  have hk := h.owner ho
  have howns : ∀ {sg}, Owns s' d sg ↔ Owns s d sg := by
    intro sg
    rw [Owns, Owns, hself]
  refine h.change (h.desc.frame havail (fun d' _ => ?_) hcarved fun x _ hm => ?_) hother hcarved
    (fun _ ho' => ?_) (fun _ _ => Iff.rfl) hP (fun _ hx _ => hx) hlinked hnodup (fun hc => ?_)
    (fun {sg} ho' => ?_) (fun ho' hne ho'' => ?_) fun _ => Or.inl ⟨seg, howns.mpr ho⟩
  · by_cases hd : d' = d
    · rw [hd, hself]
    · rw [hother d' hd]
  · unfold InMapped
    rw [hmapped]
    exact hm
  · rw [hmapped]
    exact (h.owner ho').mapped
  · refine ⟨hk.alloced, ?_, Or.inl ⟨?_, seg, howns.mpr ho⟩⟩
    · rw [hself]
      exact hheap hc
    · rw [hself]
      exact hpartly
  · obtain rfl := (howns.mp ho').unique ho
    refine ⟨hk.alloced, hk.valid, by rw [hmapped]; exact hk.mapped, by rw [hcarved]; exact hk.carved,
      by rw [hself]; exact hk.small, Or.inr ⟨?_, hmem⟩⟩
    rw [hself]
    exact hpartly
  · exact h.apart (howns.mp ho') ho'' (Ne.symm hne)

/-- The next round hands back all blocks of a full superblock at once. -/
def takesWhole (cfg : Cfg) (t c : Nat) (s : State) : Bool :=
  (s.threadCache t c).blockNum != 0 &&
    (getPageInfoForPtr s (s.threadCache t c).block).getDesc.any fun d =>
      (s.descs d).superBlock.any fun seg =>
        (s.descs d).anchor.state = .full && runLength cfg t c seg s = (s.descs d).maxCount

/-- The list of a class grows by a descriptor that was on no list. -/
theorem Books.pushed (h : Books s alloced free P lost) {c d : Nat} (hd : d ∈ alloced)
    (hnot : ∀ c', d ∉ P c') (hother : ∀ d', d' ≠ d → s'.descs d' = s.descs d')
    (hnext : (s'.descs d).nextPartial = s.partialList c)
    (hlist : s'.partialList =
      (s.setPartialList c (some (pushNewHead d (s.partialList c)))).partialList) (c' : Nat) :
    PartialLinked s' (s'.partialList c') (consOf P c d c') ∧ (consOf P c d c').Nodup := by
  have hlink := (h.linked c').congr fun d' hd' =>
    congrArg Descriptor.nextPartial (hother d' fun he => hnot c' (he ▸ hd'))
  rw [hlist]
  show PartialLinked s' (if c' = c then some (pushNewHead d (s.partialList c)) else
    s.partialList c') _ ∧ _
  unfold consOf
  by_cases hc : c' = c
  · subst hc
    rw [if_pos rfl, if_pos rfl]
    refine ⟨⟨_, rfl, getDesc_set (h.addr hd) _, ?_⟩, List.nodup_cons.mpr ⟨hnot c', h.nodup c'⟩⟩
    rw [hnext]
    exact hlink
  · rw [if_neg hc, if_neg hc]
    exact ⟨hlink, h.nodup c'⟩

section Round

variable {t c d tail next : Nat} {seg : Segment} {bin : ThreadCacheBin} {new : Anchor}

/-- The round empties the superblock, which goes back to the kernel. -/
theorem Books.flush_release {pm : Nat → PageInfo} (h : Books s alloced free P lost)
    (ho : Owns s d seg) (hempty : new.state = .empty) :
    Books (segDeallocate seg ({ s.flushTo t c d bin tail next new with pageMap := pm }.setDesc d
      { (s.flushTo t c d bin tail next new).descs d with superBlock := none })) alloced free P
      (if (s.descs d).anchor.state = .full then d :: lost else lost) := by
  refine h.release (a := new) ho hempty (fun d' hne => ?_) ?_ rfl rfl rfl rfl (fun x hx => ?_)
    fun hf => ?_
  · show (State.setDesc _ d _).descs d' = _
    rw [setDesc_other _ _ _ hne]
    exact flushTo_other _ _ _ _ _ _ _ hne
  · show (State.setDesc _ d _).descs d = _
    rw [setDesc_same, flushTo_same]
  · split
    next => exact List.mem_cons_of_mem _ hx
    next => exact hx
  · rw [if_pos hf]
    exact List.mem_cons_self ..

/-- The superblock had no free block: it joins the list of its heap. -/
theorem Books.flush_joins {c' : Nat} (h : Books s alloced free P lost) (ho : Owns s d seg)
    (hpartly : new.state = .partly) (hfull : (s.descs d).anchor.state = .full)
    (hheap : (s.descs d).procHeap = some c') :
    Books ((s.flushTo t c d bin tail next new).pushPartial c' d) alloced free (consOf P c' d)
      lost := by
  have hk := h.owner ho
  have hnot : ∀ c'', d ∉ P c'' := by
    rcases hk.state with ⟨-, -, hn⟩ | ⟨hst, -⟩
    · exact hn
    · rw [hfull] at hst
      cases hst
  have hother : ∀ d', d' ≠ d →
      ((s.flushTo t c d bin tail next new).pushPartial c' d).descs d' = s.descs d' := by
    intro d' hd'
    show (State.setDesc _ d _).descs d' = _
    rw [setDesc_other _ _ _ hd', flushTo_other _ _ _ _ _ _ _ hd']
  have hself : ((s.flushTo t c d bin tail next new).pushPartial c' d).descs d =
      { s.descs d with anchor := new, nextPartial := s.partialList c' } := by
    show (State.setDesc _ d _).descs d = _
    rw [setDesc_same, flushTo_same]
    rfl
  have hlists := h.pushed hk.alloced hnot hother (by rw [hself]) rfl
  refine h.partly (a := new) ho hpartly hother hself rfl rfl rfl (fun c'' d' hd' => ?_)
    (fun c'' => (hlists c'').1) (fun c'' => (hlists c'').2) (fun {c''} hm => ?_)
    ⟨c', mem_consOf.mpr (Or.inl ⟨rfl, rfl⟩)⟩
  · rw [mem_consOf, or_iff_right fun hx => hd' hx.2]
  · rcases mem_consOf.mp hm with ⟨rfl, -⟩ | hm
    · exact hheap
    · exact absurd hm (hnot c'')

/-- The superblock is on the list already. -/
theorem Books.flush_stays (h : Books s alloced free P lost) (ho : Owns s d seg)
    (hpartly : new.state = .partly) (hnfull : (s.descs d).anchor.state ≠ .full) :
    Books (s.flushTo t c d bin tail next new) alloced free P lost := by
  have hmem : ∃ c', d ∈ P c' := by
    rcases (h.owner ho).state with ⟨hst, -⟩ | ⟨-, hc⟩
    · exact absurd hst hnfull
    · exact hc
  refine h.partly (a := new) ho hpartly (fun _ hd' => flushTo_other _ _ _ _ _ _ _ hd')
    (flushTo_same ..) rfl rfl rfl (fun _ _ _ => Iff.rfl) (fun c' => ?_) h.nodup
    (fun hm => (h.listed hm).heap) hmem
  refine (h.linked c').congr fun d' _ => ?_
  by_cases hd' : d' = d
  · rw [hd', flushTo_same]
  · rw [flushTo_other _ _ _ _ _ _ _ hd']

/-- A full superblock has no free block, so a run that empties it is all of it. -/
theorem Books.takesWhole_of_full {cfg : Cfg} (h : Books s alloced free P lost) (ho : Owns s d seg)
    (hnum : (s.threadCache t c).blockNum ≠ 0)
    (hd : (getPageInfoForPtr s (s.threadCache t c).block).getDesc = some d)
    (hfull : (s.descs d).anchor.state = .full)
    (hall : (s.descs d).anchor.count + runLength cfg t c seg s = (s.descs d).maxCount) :
    takesWhole cfg t c s = true := by
  have hcount : (s.descs d).anchor.count = 0 := by
    rcases (h.owner ho).state with ⟨-, hc, -⟩ | ⟨hst, -⟩
    · exact hc
    · rw [hfull] at hst
      cases hst
  rw [hcount, Nat.zero_add] at hall
  rw [takesWhole, hd, Option.any_some, show (s.descs d).superBlock = some seg from ho,
    Option.any_some]
  simp [hnum, hfull, hall]

end Round

/-- **A round** moves at most one descriptor, and loses it only if it hands back the
whole superblock. -/
theorem Books.flushIter {cfg : Cfg} {t c : Nat} {more : Bool} (h : Books s alloced free P lost)
    (hiter : flushIter cfg t c s = some (more, s')) :
    ∃ P' lost', Books s' alloced free P' lost' ∧ s'.carved = s.carved ∧
      (takesWhole cfg t c s = false → lost' = lost) := by
  unfold Apfmalloc.flushIter at hiter
  split at hiter
  next =>
    cases hiter
    exact ⟨P, lost, h.other rfl rfl rfl rfl fun _ hsg => hsg, rfl, fun _ => rfl⟩
  next hnum =>
    split at hiter
    next =>
      cases hiter
      exact ⟨P, lost, h, rfl, fun _ => rfl⟩
    next d hd =>
      obtain ⟨s₁, hround, he⟩ := Option.map_eq_some_iff.mp hiter
      cases he
      obtain ⟨seg, i, bin, tail, next, ho, hrel⟩ := flushRound_cases hround
      have hstate : (s.descs d).anchor.state ≠ .empty := by
        intro he
        rcases (h.owner ho).state with ⟨hst, -⟩ | ⟨hst, -⟩ <;> rw [he] at hst <;> cases hst
      rcases flushRelease_cases hrel with ⟨hempty, pm, rfl⟩ | ⟨hne, hfull, c', hheap, rfl⟩ |
        ⟨hne, hnfull, rfl⟩
      · -- emptied: lost if it was full
        refine ⟨P, _, h.flush_release ho hempty, rfl, fun htw => if_neg fun hf => ?_⟩
        rw [h.takesWhole_of_full ho hnum hd hf ((flushAnchor_empty hstate).mp hempty)] at htw
        cases htw
      · -- from full to partly free
        rw [flushTo_same] at hheap
        exact ⟨_, lost, h.flush_joins ho (flushAnchor_partly hne) hfull hheap, rfl, fun _ => rfl⟩
      · exact ⟨P, lost, h.flush_stays ho (flushAnchor_partly hne) hnfull, rfl, fun _ => rfl⟩

/-- The rounds of a flush, up to the first that takes a whole superblock. -/
def flushKeeps (cfg : Cfg) (t c : Nat) : Nat → State → Bool
  | 0, _ => true
  | fuel + 1, s => !takesWhole cfg t c s &&
    match flushIter cfg t c s with
    | some (true, s) => flushKeeps cfg t c fuel s
    | _ => true

/-- **`flush_cache`**, by induction on its rounds. -/
theorem Books.flushLoop {cfg : Cfg} {t c : Nat} :
    ∀ (fuel : Nat) {s : State} {P : Nat → List Nat} {lost : List Nat},
      Books s alloced free P lost → flushLoop cfg t c fuel s = some s' →
      ∃ P' lost', Books s' alloced free P' lost' ∧ s'.carved = s.carved ∧
        (flushKeeps cfg t c fuel s = true → lost' = lost) := by
  intro fuel
  induction fuel with
  | zero => intro s P lost _ hloop; cases hloop
  | succ fuel ih =>
    intro s P lost h hloop
    simp only [Apfmalloc.flushLoop, Option.bind_eq_bind, Option.bind_eq_some_iff,
      Prod.exists] at hloop
    obtain ⟨more, s₁, hiter, hloop⟩ := hloop
    obtain ⟨P₁, lost₁, h₁, hcarved₁, hlost₁⟩ := h.flushIter hiter
    -- what the fold over the rounds says of this round and of the rest
    have hkeeps : flushKeeps cfg t c (fuel + 1) s = true → takesWhole cfg t c s = false ∧
        (more = true → flushKeeps cfg t c fuel s₁ = true) := by
      intro hk
      rw [flushKeeps, hiter, Bool.and_eq_true, Bool.not_eq_true'] at hk
      refine ⟨hk.1, fun hm => ?_⟩
      subst hm
      exact hk.2
    cases more with
    | false =>
      simp only [Bool.false_eq_true, if_false, Option.some.injEq] at hloop
      subst hloop
      exact ⟨P₁, lost₁, h₁, hcarved₁, fun hk => hlost₁ (hkeeps hk).1⟩
    | true =>
      obtain ⟨P₂, lost₂, h₂, hcarved₂, hlost₂⟩ := ih h₁ hloop
      refine ⟨P₂, lost₂, h₂, hcarved₂.trans hcarved₁, fun hk => ?_⟩
      rw [hlost₂ ((hkeeps hk).2 rfl), hlost₁ (hkeeps hk).1]

/-! ## Large blocks and new superblocks -/

/-- **Freeing a large block** retires its descriptor, which is on no partial list. -/
theorem Books.freeLarge {cfg : Cfg} {ptr d : Nat} (h : Books s alloced free P lost)
    (hlarge : maxSz < (s.descs d).blockSize) (hfree : freeLarge cfg ptr d s = some s') :
    ∃ alloced' free', Books s' alloced' free' P lost ∧ s'.carved = s.carved := by
  have hseg : ∃ seg, Owns s d seg := by
    simp only [Apfmalloc.freeLarge, Option.bind_eq_bind, Option.bind_eq_some_iff] at hfree
    obtain ⟨seg, hseg, -⟩ := hfree
    exact ⟨seg, hseg⟩
  obtain ⟨seg, ho⟩ := hseg
  have hk := h.owner ho
  rw [freeLarge_eq ho (Nat.ne_of_gt hk.valid.pos), Option.some.injEq] at hfree
  subst hfree
  -- a listed descriptor has a class, and the block size of a class is no large one
  have hnot : ∀ c, d ∉ P c := fun c hc => by
    have := hk.small c (h.listed hc).heap
    omega
  have hdrop : ∀ d', d' ≠ d → (s.dropLarge d seg).descs d' = s.descs d' := fun d' hne =>
    setDesc_other _ _ _ hne
  have hself : (s.dropLarge d seg).descs d = { s.descs d with superBlock := none } :=
    setDesc_same ..
  have hmapped : (s.dropLarge d seg).mapped = s.mapped.erase seg := rfl
  obtain ⟨hmap, hin⟩ := h.unmap ho hmapped
  have hdesc : DescInv (s.dropLarge d seg) alloced free := by
    refine h.desc.frame rfl (fun d' _ => ?_) rfl hin
    by_cases hd : d' = d
    · rw [hd, hself]
    · rw [hdrop d' hd]
  obtain ⟨hret, hgone⟩ := hdesc.retire_erase hk.alloced
  have hother : ∀ d', d' ≠ d → (Descriptor.retire d (s.dropLarge d seg)).descs d' = s.descs d' :=
    fun d' hne => (retire_other _ hne).trans (hdrop d' hne)
  have hno : ∀ sg, ¬Owns (Descriptor.retire d (s.dropLarge d seg)) d sg := fun sg ho' => by
    rw [Owns, retire_superBlock, hself] at ho'
    cases ho'
  refine ⟨_, _, h.change hret hother rfl hmap (fun d' hne => List.mem_erase_of_ne hne)
    (fun _ _ _ => Iff.rfl) (fun _ hx _ => hx) (fun c => ?_) h.nodup (fun hc => absurd hc (hnot _))
    (fun ho' => absurd ho' (hno _)) (fun ho' => absurd ho' (hno _)) fun hd => absurd hd hgone, rfl⟩
  exact (h.linked c).congr fun d' hd' => by rw [hother d' fun he => hnot c (he ▸ hd')]

/-- A segment just mapped lies apart from every owner's and holds no descriptor. -/
theorem Books.fresh_seg (h : Books s alloced free P lost) {seg : Segment}
    (hapart : ∀ sg ∈ s.mapped, seg.Apart sg) :
    (∀ {d sg}, Owns s d sg → seg.Apart sg) ∧
      ∀ x ∈ s.carved, x < seg.ptr ∨ seg.ptr + regionLen seg.length ≤ x :=
  ⟨fun ho => hapart _ (h.owner ho).mapped, fun x hx => (h.desc.mapped x hx).out hapart⟩

/-- **`malloc_from_new_sb`**: the descriptor it took owns the new superblock. -/
theorem Books.mallocFromNewSb {cfg : Cfg} {os : Os} {t c n d : Nat} {s₁ : State}
    (h : Books s alloced free P lost) (h1 : 1 ≤ c) (h2 : c < maxSzIdx)
    (halloc : Descriptor.alloc cfg os s = some (d, s₁))
    (hnew : mallocFromNewSb cfg os t c s = some (n, s')) :
    ∃ free', Books s' (d :: alloced) free' P lost ∧ d ∈ s'.carved ∧ ∀ x ∈ s.carved, x ∈ s'.carved := by
  obtain ⟨d', s₁', seg, halloc', -, hlen, hvalid, hapart, -, -, hs'⟩ := newSuperBlock_cases hnew
  rw [halloc, Option.some.injEq, Prod.mk.injEq] at halloc'
  obtain ⟨rfl, rfl⟩ := halloc'
  obtain ⟨free', h₁, hf, hnot, hno⟩ := h.alloc halloc
  obtain ⟨hown, hout⟩ := h₁.fresh_seg hapart
  have hspec := cfg.classSpec h1 h2
  have hself : s'.descs d = newSbDesc cfg c (cfg.sizeClass c).blockNum seg (s₁.descs d) := by
    rw [hs']
    exact if_pos rfl
  have h₂ : Books { s₁ with mapped := seg :: s₁.mapped,
                            mem := zeroFill s₁.mem seg.ptr (regionLen seg.length) }
      (d :: alloced) free' P (d :: lost) :=
    h₁.other rfl rfl rfl rfl fun _ hsg => List.mem_cons_of_mem _ hsg
  have hadds := addsRegion_newSb hspec hlen hvalid hno hown hout hself
    (fun d' hne => by rw [hs']; exact if_neg hne) (by rw [hs']) (by rw [hs']) (by rw [hs'])
    (by rw [hs']) (by rw [hs', hlen])
  have hd : d ∈ s₁.carved := h₁.desc.alloced_carved (List.mem_cons_self ..)
  refine ⟨free', h₂.own hadds (by rw [hs']) (List.mem_cons_self ..) hnot (by rw [hself]; rfl)
    (by rw [hself]; rfl) fun _ _ => ?_, by rw [hs']; exact hd, by rw [hs']; exact hf.carved⟩
  rw [hself]
  exact hspec.blockSize_le

/-- **A large `do_malloc`**: likewise. -/
theorem Books.doMalloc {cfg : Cfg} {os : Os} {tuner : Option Nat} {t size p d : Nat} {s₁ : State}
    (h : Books s alloced free P lost) (hsize : maxSz < size)
    (halloc : Descriptor.alloc cfg os s = some (d, s₁))
    (hmalloc : doMalloc cfg os tuner t size s = some (p, s')) :
    ∃ free', Books s' (d :: alloced) free' P lost ∧ d ∈ s'.carved ∧ ∀ x ∈ s.carved, x ∈ s'.carved := by
  obtain ⟨free', h₁, hf, hnot, hno⟩ := h.alloc halloc
  simp only [Apfmalloc.doMalloc, gt_iff_lt, hsize, if_true, halloc, Option.bind_eq_bind,
    Option.bind_some, Option.bind_eq_some_iff, Prod.exists, Option.some.injEq,
    Prod.mk.injEq] at hmalloc
  obtain ⟨seg, s₂, hseg, s₃, hreg, rfl, rfl⟩ := hmalloc
  obtain ⟨hlen, hvalid, hapart, rfl⟩ := segAllocate_cases hseg
  have hd : d ∈ s₁.carved := h₁.desc.alloced_carved (List.mem_cons_self ..)
  rw [registerDesc_large (h₁.addr (List.mem_cons_self ..)) (Nat.ne_of_gt hvalid.pos),
    Option.some.injEq] at hreg
  subst hreg
  obtain ⟨hown, hout⟩ := h₁.fresh_seg hapart
  have h₂ : Books { s₁ with mapped := seg :: s₁.mapped,
                            mem := zeroFill s₁.mem seg.ptr (regionLen (pageCeiling size)) }
      (d :: alloced) free' P (d :: lost) :=
    h₁.other rfl rfl rfl rfl fun _ hsg => List.mem_cons_of_mem _ hsg
  have hpos := hvalid.length_pos
  refine ⟨free', h₂.own (addsRegion_addLarge hvalid (List.mem_cons_self ..) hno hown hout
    ⟨Nat.le_refl _, by omega⟩) rfl (List.mem_cons_self ..) hnot ?_ ?_ fun c hc => ?_, hd, hf.carved⟩
  · show ((State.setLarge _ d _ seg).descs d).anchor.state = _
    rw [State.setLarge, setDesc_same]
    rfl
  · show ((State.setLarge _ d _ seg).descs d).anchor.count = _
    rw [State.setLarge, setDesc_same]
    rfl
  · rw [addLarge_procHeap] at hc
    cases hc

end Books

/-! ## Every sequence of calls -/

inductive AccountOp
  | newSb (t c : Nat)
  | fromPartial (t c : Nat)
  | flush (t c : Nat)
  | largeMalloc (t size : Nat)
  | largeFree (t ptr : Nat)
  | other

/-- A call, with the descriptors `Descriptor::alloc` ever handed out; or anything
else a thread does meanwhile that touches neither descriptors nor their lists and
unmaps nothing: pops and pushes of bins, client writes, the page map. -/
inductive AccountStep (cfg : Cfg) : State × List Nat → AccountOp → State × List Nat → Prop
  | newSb {s s₁ s' : State} {handed : List Nat} {os : Os} {t c d n : Nat} :
      1 ≤ c → c < maxSzIdx → Descriptor.alloc cfg os s = some (d, s₁) →
      mallocFromNewSb cfg os t c s = some (n, s') →
      AccountStep cfg (s, handed) (.newSb t c) (s', d :: handed)
  | fromPartial {s s' : State} {handed : List Nat} {t c n : Nat} :
      mallocFromPartial t c s = some (n, s') →
      AccountStep cfg (s, handed) (.fromPartial t c) (s', handed)
  | flush {s s' : State} {handed : List Nat} {t c : Nat} :
      flushCache cfg t c s = some s' → AccountStep cfg (s, handed) (.flush t c) (s', handed)
  | largeMalloc {s s₁ s' : State} {handed : List Nat} {os : Os} {tuner : Option Nat}
      {t size d p : Nat} :
      maxSz < size → Descriptor.alloc cfg os s = some (d, s₁) →
      doMalloc cfg os tuner t size s = some (p, s') →
      AccountStep cfg (s, handed) (.largeMalloc t size) (s', d :: handed)
  | largeFree {s s' : State} {handed : List Nat} {tuner : Option Nat} {t ptr d : Nat} :
      (getPageInfoForPtr s ptr).getDesc = some d → maxSz < (s.descs d).blockSize →
      doFree cfg tuner t ptr s = some s' →
      AccountStep cfg (s, handed) (.largeFree t ptr) (s', handed)
  | other {s s' : State} {handed : List Nat} :
      s'.descs = s.descs → s'.partialList = s.partialList →
      s'.availableDesc = s.availableDesc → s'.carved = s.carved →
      (∀ sg ∈ s.mapped, sg ∈ s'.mapped) → AccountStep cfg (s, handed) .other (s', handed)

/-- No round of the flush takes a whole superblock. -/
def AccountOk (cfg : Cfg) (s : State) : AccountOp → Prop
  | .flush t c => flushKeeps cfg t c ((s.threadCache t c).blockNum + 1) s = true
  | _ => True

def KeepStep (cfg : Cfg) (p : State × List Nat) (op : AccountOp) (p' : State × List Nat) : Prop :=
  AccountStep cfg p op p' ∧ AccountOk cfg p.1 op

def AccountInv (p : State × List Nat) (lost : List Nat) : Prop :=
  (∃ alloced free P, Books p.1 alloced free P lost) ∧ ∀ d ∈ p.2, d ∈ p.1.carved

theorem doFree_largeDesc {cfg : Cfg} {tuner : Option Nat} {t ptr d : Nat} {s s' : State}
    (hd : (getPageInfoForPtr s ptr).getDesc = some d) (hlarge : maxSz < (s.descs d).blockSize)
    (hfree : doFree cfg tuner t ptr s = some s') :
    s' = s ∨ freeLarge cfg ptr d s = some s' := by
  by_cases hptr : ptr = 0
  · rw [doFree, if_pos hptr] at hfree
    exact Or.inl (Option.some.inj hfree).symm
  · rw [doFree_eq_freeLarge hptr hd hlarge] at hfree
    exact Or.inr hfree

theorem keepStep_inv {cfg : Cfg} {p p' : State × List Nat} {op : AccountOp} (h : AccountInv p [])
    (hstep : KeepStep cfg p op p') : AccountInv p' [] := by
  obtain ⟨⟨alloced, free, P, h⟩, hh⟩ := h
  obtain ⟨hstep, hok⟩ := hstep
  cases hstep with
  | newSb h1 h2 halloc hnew =>
    obtain ⟨free', h', hd, hcarved⟩ := h.mallocFromNewSb h1 h2 halloc hnew
    exact ⟨⟨_, _, _, h'⟩, List.forall_mem_cons.mpr ⟨hd, fun x hx => hcarved x (hh x hx)⟩⟩
  | fromPartial hpart =>
    obtain ⟨alloced', free', P', h', hcarved⟩ := h.mallocFromPartialLoop _ hpart
    exact ⟨⟨_, _, _, h'⟩, fun x hx => hcarved ▸ hh x hx⟩
  | flush hflush =>
    obtain ⟨P', lost', h', hcarved, hlost⟩ := h.flushLoop _ hflush
    rw [hlost hok] at h'
    exact ⟨⟨_, _, _, h'⟩, fun x hx => hcarved ▸ hh x hx⟩
  | largeMalloc hsize halloc hmalloc =>
    obtain ⟨free', h', hd, hcarved⟩ := h.doMalloc hsize halloc hmalloc
    exact ⟨⟨_, _, _, h'⟩, List.forall_mem_cons.mpr ⟨hd, fun x hx => hcarved x (hh x hx)⟩⟩
  | largeFree hd hlarge hfree =>
    rcases doFree_largeDesc hd hlarge hfree with rfl | hfree
    · exact ⟨⟨_, _, _, h⟩, hh⟩
    · obtain ⟨alloced', free', h', hcarved⟩ := h.freeLarge hlarge hfree
      exact ⟨⟨_, _, _, h'⟩, fun x hx => hcarved ▸ hh x hx⟩
  | other hdescs hlist havail hcarved hmapped =>
    exact ⟨⟨_, _, _, h.other hdescs hlist havail hcarved hmapped⟩, fun x hx => hcarved ▸ hh x hx⟩

theorem books_init {os : Os} {s : State} (h : initMalloc os = some s) :
    Books s [] [] (fun _ => []) [] := by
  have hi : HeapInv Cfg.default s Heap.start [] := heapInv_init h
  have hno : ∀ {d sg}, ¬Owns s d sg := fun ho => List.not_mem_nil (hi.region.alloced ho)
  exact ⟨hi.desc, fun ho => absurd ho hno, fun ho => absurd ho hno, (quiet_init h).partialList,
    fun _ => List.nodup_nil, fun hd => (List.not_mem_nil hd).elim,
    fun _ hd => (List.not_mem_nil hd).elim⟩

/-- **Every descriptor ever handed out is accounted for**, as long as no round of a
flush hands back a whole full superblock. -/
theorem descriptors_accounted {cfg : Cfg} {os : Os} {s₀ s : State} {handed : List Nat}
    {ops : List AccountOp} (hinit : initMalloc os = some s₀)
    (hrun : Run (KeepStep cfg) (s₀, []) ops (s, handed)) : ∀ d ∈ handed, Accounted s d := by
  have h0 : AccountInv (s₀, []) [] :=
    ⟨⟨_, _, _, books_init hinit⟩, fun _ hd => (List.not_mem_nil hd).elim⟩
  obtain ⟨⟨_, _, _, h⟩, hh⟩ := Run.invariant (P := fun p => AccountInv p []) keepStep_inv hrun h0
  exact fun d hd => h.accounted (hh d hd)

/-- One block of a new superblock flushed by another thread, and taken back from the
partial list. -/
theorem descriptors_accounted_one_block :
    ∃ (s₀ s : State) (handed : List Nat), initMalloc Os.bump = some s₀ ∧ handed ≠ [] ∧
      Run (KeepStep Cfg.smallNoMet) (s₀, [])
        [.newSb 0 24, .other, .flush 1 24, .fromPartial 1 24] (s, handed) ∧
      ∀ d ∈ handed, Accounted s d := by
  have h : ((initMalloc Os.bump).any fun s₀ =>
      (Descriptor.alloc Cfg.smallNoMet Os.bump s₀).any fun _ =>
      (mallocFromNewSb Cfg.smallNoMet Os.bump 0 24 s₀).any fun r₁ =>
      ((r₁.2.threadCache 0 24).popBlock true r₁.2.mem).any fun r₂ =>
      ((r₁.2.threadCache 1 24).pushBlock true r₁.2.mem r₂.1).any fun r₃ =>
      (flushCache Cfg.smallNoMet 1 24
        ({ r₁.2.setBin 0 24 r₂.2 with mem := r₃.2 }.setBin 1 24 r₃.1)).any fun s₄ =>
      (mallocFromPartial 1 24 s₄).any fun _ =>
      flushKeeps Cfg.smallNoMet 1 24 (r₃.1.blockNum + 1)
        ({ r₁.2.setBin 0 24 r₂.2 with mem := r₃.2 }.setBin 1 24 r₃.1) = true) = true := by
    decide +kernel
  simp only [Option.any_eq_true, decide_eq_true_eq, Prod.exists] at h
  obtain ⟨s₀, hinit, d, s', halloc, n, s₁, hnew, x, b₂, hpop, b₃, m₃, hpush, s₄, hflush, k, s₅, hpart,
    hc⟩ := h
  have hrun : Run (KeepStep Cfg.smallNoMet) (s₀, [])
      [.newSb 0 24, .other, .flush 1 24, .fromPartial 1 24] (s₅, [d]) := by
    have hother : AccountStep Cfg.smallNoMet (s₁, [d]) .other
        ({ s₁.setBin 0 24 b₂ with mem := m₃ }.setBin 1 24 b₃, [d]) :=
      .other rfl rfl rfl rfl fun _ hsg => hsg
    refine .cons ⟨.newSb (by decide) (by decide) halloc hnew, trivial⟩
      (.cons ⟨hother, trivial⟩ (.cons ⟨.flush hflush, ?_⟩
        (.cons ⟨.fromPartial hpart, trivial⟩ (.nil _))))
    rw [AccountOk, setBin_same]
    exact hc
  exact ⟨s₀, s₅, [d], hinit, List.cons_ne_nil _ _, hrun, descriptors_accounted hinit hrun⟩

/-- A new superblock flushed whole: it goes back to the kernel, and its descriptor is
nowhere. -/
theorem flush_loses_descriptor :
    ∃ (s₀ s : State) (handed : List Nat), initMalloc Os.bump = some s₀ ∧
      Run (AccountStep Cfg.smallNoMet) (s₀, []) [.newSb 0 24, .flush 0 24] (s, handed) ∧
      ∃ d ∈ handed, ¬Accounted s d := by
  have h : ((initMalloc Os.bump).any fun s₀ =>
      (Descriptor.alloc Cfg.smallNoMet Os.bump s₀).any fun r =>
      (mallocFromNewSb Cfg.smallNoMet Os.bump 0 24 s₀).any fun r₁ =>
      (flushCache Cfg.smallNoMet 0 24 r₁.2).any fun s₂ =>
      (s₂.descs r.1).superBlock = none ∧ (s₂.descs r.1).procHeap = some 24 ∧
        s₂.partialList 24 = none) = true := by
    decide +kernel
  simp only [Option.any_eq_true, decide_eq_true_eq, Prod.exists] at h
  obtain ⟨s₀, hinit, d, s', halloc, n, s₁, hnew, s₂, hflush, hc⟩ := h
  obtain ⟨hnone, hheap, hlist⟩ := hc
  obtain ⟨free', h₁, -⟩ := (books_init hinit).mallocFromNewSb (by decide) (by decide) halloc hnew
  obtain ⟨P', lost', h₂, -⟩ := h₁.flushLoop _ hflush
  exact ⟨s₀, s₂, [d], hinit,
    .cons (.newSb (by decide) (by decide) halloc hnew) (.cons (.flush hflush) (.nil _)),
    d, List.mem_cons_self .., h₂.not_accounted (List.mem_cons_self ..) hnone hheap hlist⟩

end Apfmalloc
