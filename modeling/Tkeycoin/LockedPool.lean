import Tkeycoin.ArenaRuns

/-! The locked pool: arenas on pages that are locked into memory, and more of them as they are needed. -/
namespace Tkeycoin

/-- What the page allocator and the callback answer while an arena is made. -/
structure PageAnswer where
  limit : UInt64
  /-- Null where there is no memory. -/
  addr : ℕ
  locked : Bool
  /-- What `lf_cb` returns. -/
  accepted : Bool

structure LockedPool where
  arenas : List Arena
  /-- There is a callback for pages that could not be locked. -/
  lf_cb : Bool
  cumulative_bytes_locked : UInt64

namespace LockedPool

def ARENA_SIZE : UInt64 := 256 * 1024

def ARENA_ALIGN : UInt64 := 16

def new (lf_cb : Bool) : LockedPool := ⟨[],lf_cb,0⟩

/-- The first arena is no larger than the limit of the process, if there is one. -/
def arenaSize (p : LockedPool) (size : UInt64) (answer : PageAnswer) : UInt64 :=
  if p.arenas = [] ∧ answer.limit > 0 then if answer.limit < size then answer.limit else size else size

def new_arena (p : LockedPool) (size align : UInt64) (answer : PageAnswer) : Bool × LockedPool :=
  let size := p.arenaSize size answer
  let arenas := p.arenas ++ [Arena.new answer.addr size.toNat align]
  if answer.addr = 0 then (false,p)
  else if answer.locked then
    (true,{ p with arenas, cumulative_bytes_locked := p.cumulative_bytes_locked + size })
  else if p.lf_cb && !answer.accepted then (false,p)
  else (true,{ p with arenas })

/-- From the first arena that has room. -/
def allocIn (size : UInt64) : List Arena → ℕ × List Arena
  | [] => (0,[])
  | arena :: arenas =>
    let r := arena.alloc size
    if r.1 ≠ 0 then (r.1,r.2 :: arenas) else ((allocIn size arenas).1,r.2 :: (allocIn size arenas).2)

/-- `arenas.back().alloc(size)` -/
def allocBack (p : LockedPool) (size : UInt64) : ℕ × LockedPool :=
  match p.arenas.getLast? with
  | none => (0,p)
  | some arena => ((arena.alloc size).1,{ p with arenas := p.arenas.dropLast ++ [(arena.alloc size).2] })

def alloc (p : LockedPool) (size : UInt64) (answer : PageAnswer) : ℕ × LockedPool :=
  if size = 0 ∨ size > ARENA_SIZE then (0,p)
  else
    let r := allocIn size p.arenas
    let p := { p with arenas := r.2 }
    if r.1 ≠ 0 then (r.1,p)
    else
      let made := p.new_arena ARENA_SIZE ARENA_ALIGN answer
      if made.1 then made.2.allocBack size else (0,made.2)

/-- In the arena where the address is. -/
def freeIn (ptr : ℕ) : List Arena → Option (List Arena)
  | [] => none
  | arena :: arenas =>
    if arena.addressInArena ptr then (arena.free ptr).map fun arena => arena :: arenas
    else (freeIn ptr arenas).map fun arenas => arena :: arenas

/-- `none` where it throws. -/
def free (p : LockedPool) (ptr : ℕ) : Option LockedPool :=
  (freeIn ptr p.arenas).map fun arenas => { p with arenas }

/-- The pages are none that an arena has. -/
def Fresh (p : LockedPool) (answer : PageAnswer) : Prop :=
  ∀ a ∈ p.arenas, answer.addr + ARENA_SIZE.toNat ≤ a.base ∨ a.end_ ≤ answer.addr

/-- There are no pages, or they could not be locked and the callback does not accept it. -/
def Refused (p : LockedPool) (answer : PageAnswer) : Prop :=
  answer.addr = 0 ∨ answer.locked = false ∧ p.lf_cb = true ∧ answer.accepted = false

/-- Calls that return. -/
inductive Step (p : LockedPool) : LockedPool → Prop
  | alloc (size : UInt64) {answer : PageAnswer} (h : p.Fresh answer) : Step p (p.alloc size answer).2
  | free {ptr : ℕ} {p' : LockedPool} (h : p.free ptr = some p') : Step p p'

/-- Pools behind any calls. -/
def Reachable (lf_cb : Bool) (p : LockedPool) : Prop := Relation.ReflTransGen Step (new lf_cb) p

/-- A chunk that was given out and has not come back. -/
def InUse (p : LockedPool) (ptr n : ℕ) : Prop := ∃ a ∈ p.arenas, a.InUse ptr n

/-- One chunk more is in use, of at least the size asked for. -/
def GivesOut (p : LockedPool) (size : UInt64) (ptr : ℕ) (p' : LockedPool) : Prop :=
  ptr ≠ 0 ∧ ∃ n, size.toNat ≤ n ∧ n < size.toNat + 2^4 ∧ (∀ m, ¬ p.InUse ptr m) ∧
    ∀ q m, p'.InUse q m ↔ q = ptr ∧ m = n ∨ p.InUse q m

theorem GivesOut.congr {p q p' : LockedPool} {size : UInt64} {ptr : ℕ} (h : q.GivesOut size ptr p')
    (hinUse : ∀ ptr n, q.InUse ptr n ↔ p.InUse ptr n) : p.GivesOut size ptr p' := by
  simpa only [GivesOut,hinUse] using h

section Kept

/-- The maps of an arena keep a division of its memory. -/
def Kept (a : Arena) : Prop :=
  a.alignment = UInt64.ofNat (2^4) ∧ 0 < a.base ∧ ∃ (lo hi : ℕ) (D : Division lo hi), a.Keeps D

variable {a a' : Arena}

theorem Kept.step (h : Kept a) (hstep : Arena.Step a a') : Kept a' ∧ a'.base = a.base ∧ a'.end_ = a.end_ := by
  obtain ⟨halign,hpos,lo,hi,D,hkeeps⟩ := h
  obtain ⟨halign',D',hkeeps',-⟩ := Arena.step_keeps (by decide) halign hkeeps hstep
  have hbase : a'.base = a.base := hkeeps'.base.trans hkeeps.base.symm
  exact ⟨⟨halign'.trans halign,hbase ▸ hpos,lo,hi,D',hkeeps'⟩,hbase,hkeeps'.stop.trans hkeeps.stop.symm⟩

theorem Kept.inside (h : Kept a) {ptr n : ℕ} (hin : a.InUse ptr n) : 0 < n ∧ a.base ≤ ptr ∧ ptr + n ≤ a.end_ := by
  obtain ⟨-,-,lo,hi,D,hkeeps⟩ := h
  have hc := hkeeps.inUse.mp hin
  rw [hkeeps.base,hkeeps.stop]
  exact ⟨D.pos _ (.inl hc),D.inside _ (.inl hc)⟩

theorem Kept.apart (h : Kept a) {ptr n ptr' n' : ℕ} (hin : a.InUse ptr n) (hin' : a.InUse ptr' n') :
    ptr = ptr' ∧ n = n' ∨ ptr + n ≤ ptr' ∨ ptr' + n' ≤ ptr := by
  obtain ⟨-,-,lo,hi,D,hkeeps⟩ := h
  by_cases heq : (⟨ptr,n⟩ : Chunk) = ⟨ptr',n'⟩
  · exact .inl ((Chunk.mk.injEq ..).mp heq)
  · exact .inr (D.apart _ (.inl (hkeeps.inUse.mp hin)) _ (.inl (hkeeps.inUse.mp hin')) heq)

theorem Kept.alloc_adds (h : Kept a) (size : UInt64) : a.alloc size = (0,a) ∨
    ∃ ptr n a', a.alloc size = (ptr,a') ∧ ptr ≠ 0 ∧ size.toNat ≤ n ∧ n < size.toNat + 2^4 ∧
      (∀ m, ¬ a.InUse ptr m) ∧ ∀ p m, a'.InUse p m ↔ p = ptr ∧ m = n ∨ a.InUse p m := by
  obtain ⟨halign,hpos,lo,hi,D,hkeeps⟩ := h
  exact Arena.alloc_adds (by decide) halign hkeeps (hkeeps.base ▸ hpos) size

theorem Kept.free_none (h : Kept a) (ptr : ℕ) : a.free ptr = none ↔ ptr ≠ 0 ∧ ∀ n, ¬ a.InUse ptr n := by
  obtain ⟨-,-,lo,hi,D,hkeeps⟩ := h
  exact Arena.free_none hkeeps ptr

theorem Kept.free_removes (h : Kept a) {ptr : ℕ} (hfree : a.free ptr = some a') (p n : ℕ) :
    a'.InUse p n ↔ p ≠ ptr ∧ a.InUse p n := by
  obtain ⟨-,hpos,lo,hi,D,hkeeps⟩ := h
  exact Arena.free_removes hkeeps (hkeeps.base ▸ hpos) hfree p n

theorem new_kept {addr : ℕ} {size : UInt64} (haddr : addr ≠ 0) (hsize : 0 < size.toNat) :
    Kept (.new addr size.toNat ARENA_ALIGN) :=
  ⟨rfl,Nat.pos_of_ne_zero haddr,_,_,_,Arena.new_keeps addr ARENA_ALIGN (Nat.lt_add_of_pos_right hsize)⟩

theorem new_unused (addr size : ℕ) (align : UInt64) (ptr n : ℕ) : ¬ (Arena.new addr size align).InUse ptr n := by
  simp [Arena.InUse,Arena.new]

end Kept

/-- Every arena keeps a division, and no two have memory in common. -/
structure Sound (p : LockedPool) : Prop where
  kept : ∀ a ∈ p.arenas, Kept a
  apart : (p.arenas.map fun a => (a.base,a.end_)).Pairwise fun r s => r.2 ≤ s.1 ∨ s.2 ≤ r.1

section Sound

variable {p : LockedPool} {front back : List Arena} {a a' : Arena}

theorem Sound.at (h : p.Sound) (hp : p.arenas = front ++ a :: back) : Kept a := by
  refine h.kept a ?_
  rw [hp]
  exact List.mem_append_right _ List.mem_cons_self

/-- A step of one arena. -/
theorem Sound.replace (h : p.Sound) (hp : p.arenas = front ++ a :: back) (hstep : Arena.Step a a') :
    { p with arenas := front ++ a' :: back }.Sound := by
  obtain ⟨hkept,hbase,hend⟩ := (h.at hp).step hstep
  refine ⟨fun b hb => ?_,?_⟩
  · by_cases heq : b = a'
    · exact heq ▸ hkept
    · refine h.kept b ?_
      rw [hp]
      simp only [List.mem_append,List.mem_cons,heq,false_or] at hb ⊢
      tauto
  · have hapart := h.apart
    rw [hp] at hapart
    simpa only [List.map_append,List.map_cons,hbase,hend] using hapart

/-- What is in use in one arena or in the others. -/
theorem inUse_split (hp : p.arenas = front ++ a :: back) (ptr n : ℕ) :
    p.InUse ptr n ↔ a.InUse ptr n ∨ ∃ b ∈ front ++ back, b.InUse ptr n := by
  simp only [InUse,hp,List.mem_append,List.mem_cons,or_and_right,exists_or,exists_eq_left]
  exact or_left_comm

/-- The other arenas are elsewhere. -/
theorem Sound.elsewhere (h : p.Sound) (hp : p.arenas = front ++ a :: back) {b : Arena} (hb : b ∈ front ++ back) :
    Kept b ∧ (a.end_ ≤ b.base ∨ b.end_ ≤ a.base) := by
  have hapart := h.apart
  rw [hp,List.map_append,List.map_cons,List.pairwise_middle fun hrs => hrs.symm,List.pairwise_cons,
    ← List.map_append] at hapart
  refine ⟨h.kept b ?_,hapart.1 _ (List.mem_map_of_mem hb)⟩
  rw [hp]
  simp only [List.mem_append,List.mem_cons] at hb ⊢
  tauto

theorem Sound.inUse_pos (h : p.Sound) {ptr n : ℕ} (hin : p.InUse ptr n) : 0 < ptr ∧ 0 < n := by
  obtain ⟨a,ha,hin⟩ := hin
  have hbase := (h.kept a ha).2.1
  have hinside := (h.kept a ha).inside hin
  omega

/-- Chunks in use are apart, in one arena and in two. -/
theorem Sound.inUse_apart (h : p.Sound) {ptr n ptr' n' : ℕ} (hin : p.InUse ptr n) (hin' : p.InUse ptr' n') :
    ptr = ptr' ∧ n = n' ∨ ptr + n ≤ ptr' ∨ ptr' + n' ≤ ptr := by
  obtain ⟨a,ha,hin⟩ := hin
  obtain ⟨front,back,hp⟩ := List.append_of_mem ha
  rcases (inUse_split hp ptr' n').mp hin' with hin' | ⟨b,hb,hin'⟩
  · exact (h.at hp).apart hin hin'
  · obtain ⟨hkept,hab⟩ := h.elsewhere hp hb
    have hinside := (h.at hp).inside hin
    have hinside' := hkept.inside hin'
    omega

/-- An arena that has room gives out a chunk. -/
theorem Sound.alloc_at (h : p.Sound) (hp : p.arenas = front ++ a :: back) {size : UInt64} {ptr : ℕ}
    (halloc : a.alloc size = (ptr,a')) (hptr : ptr ≠ 0) :
    { p with arenas := front ++ a' :: back }.Sound ∧ p.GivesOut size ptr { p with arenas := front ++ a' :: back } := by
  have hstep : Arena.Step a a' := by
    have hall := Arena.Step.alloc (a := a) size
    rwa [halloc] at hall
  have hsound := h.replace hp hstep
  obtain ⟨hkept,hbase,hend⟩ := (h.at hp).step hstep
  rcases (h.at hp).alloc_adds size with hnull | ⟨ptr',n,a'',halloc',-,hle,hlt,hnew,hadds⟩
  · rw [hnull] at halloc
    exact absurd (Prod.mk.inj halloc).1.symm hptr
  · obtain ⟨rfl,rfl⟩ := Prod.mk.inj (halloc.symm.trans halloc')
    refine ⟨hsound,hptr,n,hle,hlt,fun m hin => ?_,fun q m => ?_⟩
    · rcases (inUse_split hp _ _).mp hin with hin | ⟨b,hb,hin⟩
      · exact hnew m hin
      · obtain ⟨hkept',hab⟩ := h.elsewhere hp hb
        have hinside := hkept.inside ((hadds ptr n).mpr (.inl ⟨rfl,rfl⟩))
        have hinside' := hkept'.inside hin
        omega
    · rw [inUse_split (p := { p with arenas := front ++ a' :: back }) rfl,hadds,inUse_split hp,or_assoc]

theorem allocIn_cases {arenas : List Arena} (h : ∀ a ∈ arenas, Kept a) (size : UInt64) :
    (∀ a ∈ arenas, (a.alloc size).1 = 0) ∧ allocIn size arenas = (0,arenas) ∨
      ∃ front a back ptr a', arenas = front ++ a :: back ∧ a.alloc size = (ptr,a') ∧ ptr ≠ 0 ∧
        allocIn size arenas = (ptr,front ++ a' :: back) := by
  induction arenas with
  | nil => exact .inl ⟨fun a ha => absurd ha List.not_mem_nil,rfl⟩
  | cons arena arenas ih =>
    rcases (h arena List.mem_cons_self).alloc_adds size with hnull | ⟨ptr,n,a',halloc,hptr,-⟩
    · have hin : allocIn size (arena :: arenas) = ((allocIn size arenas).1,arena :: (allocIn size arenas).2) := by
        simp [allocIn,hnull]
      rcases ih fun a ha => h a (List.mem_cons_of_mem _ ha) with
        ⟨hall,hnone⟩ | ⟨front,a,back,ptr,a',rfl,halloc,hptr,hrest⟩
      · rw [hin,hnone]
        exact .inl ⟨List.forall_mem_cons.mpr ⟨congrArg Prod.fst hnull,hall⟩,rfl⟩
      · rw [hin,hrest]
        exact .inr ⟨arena :: front,a,back,ptr,a',rfl,halloc,hptr,rfl⟩
    · refine .inr ⟨[],arena,arenas,ptr,a',rfl,halloc,hptr,?_⟩
      simp [allocIn,halloc,hptr]

theorem arenaSize_pos (p : LockedPool) (answer : PageAnswer) : 0 < (p.arenaSize ARENA_SIZE answer).toNat := by
  rw [arenaSize]
  split_ifs with hfirst
  · exact UInt64.lt_iff_toNat_lt.mp hfirst.2
  · decide
  · decide

/-- Behind the first, arenas have one size. -/
theorem arenaSize_eq (hp : p.arenas ≠ []) (answer : PageAnswer) : p.arenaSize ARENA_SIZE answer = ARENA_SIZE :=
  if_neg fun hfirst => hp hfirst.1

/-- There is one arena more, or it is refused. -/
theorem new_arena_cases (p : LockedPool) (answer : PageAnswer) :
    p.Refused answer ∧ p.new_arena ARENA_SIZE ARENA_ALIGN answer = (false,p) ∨
      ¬ p.Refused answer ∧ ∃ locked, p.new_arena ARENA_SIZE ARENA_ALIGN answer =
        (true,⟨p.arenas ++ [.new answer.addr (p.arenaSize ARENA_SIZE answer).toNat ARENA_ALIGN],p.lf_cb,locked⟩) := by
  simp only [new_arena,Refused]
  split_ifs with haddr hlocked hcb
  · exact .inl ⟨.inl haddr,rfl⟩
  · exact .inr ⟨by simp [haddr,hlocked],_,rfl⟩
  · exact .inl ⟨.inr ⟨by simpa using hlocked,by simpa using hcb⟩,rfl⟩
  · refine .inr ⟨?_,_,rfl⟩
    rintro (hnull | ⟨-,hrefused⟩)
    · exact haddr hnull
    · exact hcb (by simp [hrefused])

theorem Sound.grow (h : p.Sound) {answer : PageAnswer} (hfresh : p.Fresh answer) (haddr : answer.addr ≠ 0)
    (locked : UInt64) :
    Sound ⟨p.arenas ++ [.new answer.addr (p.arenaSize ARENA_SIZE answer).toNat ARENA_ALIGN],p.lf_cb,locked⟩ := by
  refine ⟨fun a ha => ?_,?_⟩
  · rcases List.mem_append.mp ha with ha | ha
    · exact h.kept a ha
    · obtain rfl := List.mem_singleton.mp ha
      exact new_kept haddr (arenaSize_pos p answer)
  · rw [List.map_append,List.pairwise_append]
    refine ⟨h.apart,List.pairwise_singleton _ _,fun r hr s hs => ?_⟩
    obtain ⟨a,ha,rfl⟩ := List.mem_map.mp hr
    obtain rfl := List.mem_singleton.mp hs
    have hapart := hfresh a ha
    rw [arenaSize_eq (List.ne_nil_of_mem ha)]
    exact hapart.symm

theorem inUse_grow (p : LockedPool) (addr size : ℕ) (align locked : UInt64) (ptr n : ℕ) :
    InUse ⟨p.arenas ++ [.new addr size align],p.lf_cb,locked⟩ ptr n ↔ p.InUse ptr n := by
  simp only [InUse,List.mem_append,List.mem_singleton,or_and_right,exists_or,exists_eq_left,new_unused,or_false]

/-- The last arena gives out a chunk, or nothing changes. -/
theorem Sound.allocBack_spec (h : p.Sound) (hp : p.arenas = front ++ [a]) (size : UInt64) :
    (p.allocBack size).2.Sound ∧
      ((p.allocBack size).1 = 0 ∧ (∀ ptr n, (p.allocBack size).2.InUse ptr n ↔ p.InUse ptr n) ∨
        p.GivesOut size (p.allocBack size).1 (p.allocBack size).2) := by
  have hback : p.allocBack size = ((a.alloc size).1,{ p with arenas := front ++ [(a.alloc size).2] }) := by
    simp only [allocBack,hp,List.getLast?_concat,List.dropLast_concat]
  rw [hback]
  rcases (h.at hp).alloc_adds size with hnull | ⟨ptr,n,a',halloc,hptr,-⟩
  · rw [hnull,← hp]
    exact ⟨h,.inl ⟨rfl,fun _ _ => Iff.rfl⟩⟩
  · rw [halloc]
    obtain ⟨hsound,hgives⟩ := h.alloc_at hp halloc hptr
    exact ⟨hsound,.inr hgives⟩

/-- What a call to `alloc` does. -/
theorem Sound.alloc_spec (h : p.Sound) (size : UInt64) {answer : PageAnswer} (hfresh : p.Fresh answer) :
    (p.alloc size answer).2.Sound ∧
      ((p.alloc size answer).1 = 0 ∧ (∀ ptr n, (p.alloc size answer).2.InUse ptr n ↔ p.InUse ptr n) ∨
        p.GivesOut size (p.alloc size answer).1 (p.alloc size answer).2) := by
  by_cases hsize : size = 0 ∨ size > ARENA_SIZE
  · rw [alloc,if_pos hsize]
    exact ⟨h,.inl ⟨rfl,fun _ _ => Iff.rfl⟩⟩
  · simp only [alloc,if_neg hsize]
    rcases allocIn_cases h.kept size with ⟨-,hnone⟩ | ⟨front,a,back,ptr,a',hp,halloc,hptr,hin⟩
    · rw [hnone]
      simp only [ne_eq,not_true_eq_false,if_false]
      rcases new_arena_cases p answer with ⟨-,hfails⟩ | ⟨hgiven,locked,hmade⟩
      · rw [hfails]
        exact ⟨h,.inl ⟨rfl,fun _ _ => Iff.rfl⟩⟩
      · rw [hmade]
        have hgrown := h.grow hfresh (fun haddr => hgiven (.inl haddr)) locked
        have hinUse := inUse_grow p answer.addr (p.arenaSize ARENA_SIZE answer).toNat ARENA_ALIGN locked
        obtain ⟨hsound,⟨hnull,hsame⟩ | hgives⟩ := hgrown.allocBack_spec rfl size
        · exact ⟨hsound,.inl ⟨hnull,fun ptr n => (hsame ptr n).trans (hinUse ptr n)⟩⟩
        · exact ⟨hsound,.inr (hgives.congr hinUse)⟩
    · rw [hin]
      simp only [ne_eq,hptr,not_false_eq_true,if_true]
      obtain ⟨hsound,hgives⟩ := h.alloc_at hp halloc hptr
      exact ⟨hsound,.inr hgives⟩

/-- A new arena has room for what is not larger than it. -/
theorem new_alloc_null {addr n : ℕ} (haddr : addr ≠ 0) (hn : 0 < n) (align size : UInt64) :
    ((Arena.new addr n align).alloc size).1 = 0 ↔
      (align_up size align).toNat = 0 ∨ n < (align_up size align).toNat := by
  have hkeeps := Arena.new_keeps addr align (Nat.lt_add_of_pos_right hn)
  rcases Arena.alloc_cases hkeeps size rfl with ⟨hnull,hfull⟩ | ⟨it,hc,hpos,hle,a',halloc,-,-⟩
  · rw [hnull]
    refine iff_of_true rfl (hfull.imp_right fun hall => ?_)
    have hsmall : addr + n - addr < (align_up size align).toNat := hall ⟨addr,addr + n - addr⟩ rfl
    omega
  · obtain ⟨hstart,hsize⟩ : it.2 = addr ∧ it.1 = addr + n - addr := (Chunk.mk.injEq ..).mp hc
    change (align_up size align).toNat ≤ it.1 at hle
    change 0 < (align_up size align).toNat at hpos
    rw [halloc]
    refine iff_of_false (by dsimp only; omega) (by omega)

/-- What may be asked for is not more than an arena when it is rounded up. -/
theorem align_up_le {size : UInt64} (hsize : ¬ (size = 0 ∨ size > ARENA_SIZE)) :
    0 < (align_up size ARENA_ALIGN).toNat ∧ (align_up size ARENA_ALIGN).toNat ≤ ARENA_SIZE.toNat := by
  obtain ⟨hne,hle⟩ := not_or.mp hsize
  have hpos : size.toNat ≠ 0 := fun hzero => hne (UInt64.toNat_inj.mp hzero)
  have hmost : size.toNat ≤ ARENA_SIZE.toNat := UInt64.le_iff_toNat_le.mp (UInt64.not_lt.mp hle)
  have hsize : ARENA_SIZE.toNat = 256 * 1024 := rfl
  have hcases := align_up_cases (k := 4) (by decide) size
  rw [show UInt64.ofNat (2^4) = ARENA_ALIGN from rfl] at hcases
  omega

theorem freeIn_cases (ptr : ℕ) (arenas : List Arena) :
    (freeIn ptr arenas = none ∧ ∀ a ∈ arenas, ¬ a.addressInArena ptr) ∨
      ∃ front a back, arenas = front ++ a :: back ∧ a.addressInArena ptr ∧
        freeIn ptr arenas = (a.free ptr).map fun a' => front ++ a' :: back := by
  induction arenas with
  | nil => exact .inl ⟨rfl,fun a ha => absurd ha List.not_mem_nil⟩
  | cons arena arenas ih =>
    by_cases hptr : arena.addressInArena ptr
    · refine .inr ⟨[],arena,arenas,rfl,hptr,?_⟩
      rw [freeIn,if_pos hptr]
      rfl
    · rw [freeIn,if_neg hptr]
      rcases ih with ⟨hnone,hout⟩ | ⟨front,a,back,rfl,hin,hsome⟩
      · rw [hnone]
        exact .inl ⟨rfl,List.forall_mem_cons.mpr ⟨hptr,hout⟩⟩
      · rw [hsome,Option.map_map]
        exact .inr ⟨arena :: front,a,back,rfl,hin,rfl⟩

theorem addressInArena_iff {ptr : ℕ} : a.addressInArena ptr ↔ a.base ≤ ptr ∧ ptr < a.end_ := by
  simp [Arena.addressInArena]

/-- At an address of one arena the others have nothing. -/
theorem Sound.others_unused (h : p.Sound) (hp : p.arenas = front ++ a :: back) {ptr : ℕ}
    (hptr : a.addressInArena ptr) (n : ℕ) : ¬ ∃ b ∈ front ++ back, b.InUse ptr n := by
  rintro ⟨b,hb,hin⟩
  obtain ⟨hkept,hab⟩ := h.elsewhere hp hb
  have hinside := hkept.inside hin
  have haddress := addressInArena_iff.mp hptr
  omega

theorem Sound.alloc_null (h : p.Sound) (size : UInt64) (answer : PageAnswer) :
    (p.alloc size answer).1 = 0 ↔ (size = 0 ∨ size > ARENA_SIZE) ∨
      (∀ a ∈ p.arenas, (a.alloc size).1 = 0) ∧ (p.Refused answer ∨
        p.arenas = [] ∧ 0 < answer.limit ∧ answer.limit.toNat < (align_up size ARENA_ALIGN).toNat) := by
  by_cases hsize : size = 0 ∨ size > ARENA_SIZE
  · rw [alloc,if_pos hsize]
    exact iff_of_true rfl (.inl hsize)
  · simp only [alloc,if_neg hsize,or_iff_right hsize]
    rcases allocIn_cases h.kept size with ⟨hall,hnone⟩ | ⟨front,a,back,ptr,a',hp,halloc,hptr,hin⟩
    · rw [hnone,and_iff_right hall]
      simp only [ne_eq,not_true_eq_false,if_false]
      rcases new_arena_cases p answer with ⟨hrefused,hfails⟩ | ⟨hgiven,locked,hmade⟩
      · rw [hfails]
        exact iff_of_true rfl (.inl hrefused)
      · rw [hmade,or_iff_right hgiven]
        simp only [if_true,allocBack,List.getLast?_concat]
        rw [new_alloc_null (fun haddr => hgiven (.inl haddr)) (arenaSize_pos p answer)]
        obtain ⟨hpos,hle⟩ := align_up_le hsize
        rw [or_iff_right hpos.ne',arenaSize]
        split_ifs with hfirst hcapped
        · exact ⟨fun hlt => ⟨hfirst.1,hfirst.2,hlt⟩,fun hlt => hlt.2.2⟩
        · have hlimit := UInt64.le_iff_toNat_le.mp (UInt64.not_lt.mp hcapped)
          exact iff_of_false (by omega) fun hlt => by omega
        · exact iff_of_false (by omega) fun hlt => hfirst ⟨hlt.1,hlt.2.1⟩
    · rw [hin]
      simp only [ne_eq,hptr,not_false_eq_true,if_true]
      refine iff_of_false not_false fun hall => ?_
      have hnull := hall.1 a (by rw [hp]; exact List.mem_append_right _ List.mem_cons_self)
      rw [halloc] at hnull
      exact hptr hnull

theorem Sound.free_none (h : p.Sound) (ptr : ℕ) : p.free ptr = none ↔ ∀ n, ¬ p.InUse ptr n := by
  rw [free,Option.map_eq_none_iff]
  rcases freeIn_cases ptr p.arenas with ⟨hnone,hout⟩ | ⟨front,a,back,hp,hptr,hsome⟩
  · refine iff_of_true hnone ?_
    rintro n ⟨a,ha,hin⟩
    have hinside := (h.kept a ha).inside hin
    exact hout a ha (addressInArena_iff.mpr (by omega))
  · have hne : ptr ≠ 0 := by
      have hbase := (h.at hp).2.1
      have haddress := addressInArena_iff.mp hptr
      omega
    rw [hsome,Option.map_eq_none_iff,(h.at hp).free_none,and_iff_right hne]
    refine forall_congr' fun n => not_congr ?_
    rw [inUse_split hp,or_iff_left (h.others_unused hp hptr n)]

theorem Sound.free_spec (h : p.Sound) {ptr : ℕ} {p' : LockedPool} (hfree : p.free ptr = some p') :
    p'.Sound ∧ ∀ q n, p'.InUse q n ↔ q ≠ ptr ∧ p.InUse q n := by
  obtain ⟨arenas,harenas,rfl⟩ := Option.map_eq_some_iff.mp hfree
  rcases freeIn_cases ptr p.arenas with ⟨hnone,-⟩ | ⟨front,a,back,hp,hptr,hsome⟩
  · exact absurd (hnone.symm.trans harenas) (Option.some_ne_none arenas).symm
  · obtain ⟨a',ha',rfl⟩ := Option.map_eq_some_iff.mp (hsome.symm.trans harenas)
    refine ⟨h.replace hp (.free ha'),fun q n => ?_⟩
    rw [inUse_split (p := { p with arenas := front ++ a' :: back }) rfl,(h.at hp).free_removes ha']
    have hunused := h.others_unused hp hptr n
    by_cases hq : q = ptr
    · subst hq
      simp only [ne_eq,not_true_eq_false,false_and,false_or,iff_false]
      exact hunused
    · rw [inUse_split hp]
      simp only [ne_eq,hq,not_false_eq_true,true_and]

end Sound

section Runs

variable {lf_cb : Bool} {p : LockedPool}

/-- Behind any calls, every arena keeps a division, and no two have memory in common. -/
theorem reachable_sound (h : Reachable lf_cb p) : p.Sound := by
  induction h with
  | refl => exact ⟨fun a ha => absurd ha List.not_mem_nil,.nil⟩
  | tail _ hstep ih =>
    cases hstep with
    | alloc size hfresh => exact (ih.alloc_spec size hfresh).1
    | free hfree => exact (ih.free_spec hfree).1

/-- Of which sixteen bytes are in use. -/
def somePool : LockedPool := ((new true).alloc 10 ⟨0,4096,true,true⟩).2

theorem somePool_reachable : Reachable true somePool :=
  .single (.alloc 10 fun _ ha => absurd ha List.not_mem_nil)

/-- In every state of a pool that gets no page twice, what is in use lies apart, in whatever arenas. A call to `alloc`
adds one chunk of at least the size asked for, or what is in use stays. One to `free` takes its chunk away, and it
throws for exactly the pointers that were not given out, the null pointer too. -/
theorem given_out_apart (h : Reachable lf_cb p) :
    (∀ ptr n, p.InUse ptr n → 0 < ptr ∧ 0 < n) ∧
      (∀ ptr n ptr' n', p.InUse ptr n → p.InUse ptr' n' →
        ptr = ptr' ∧ n = n' ∨ ptr + n ≤ ptr' ∨ ptr' + n' ≤ ptr) ∧
      (∀ size answer, p.Fresh answer →
        (p.alloc size answer).1 = 0 ∧ (∀ ptr n, (p.alloc size answer).2.InUse ptr n ↔ p.InUse ptr n) ∨
          p.GivesOut size (p.alloc size answer).1 (p.alloc size answer).2) ∧
      (∀ ptr, p.free ptr = none ↔ ∀ n, ¬ p.InUse ptr n) ∧
      ∀ ptr p', p.free ptr = some p' → ∀ q n, p'.InUse q n ↔ q ≠ ptr ∧ p.InUse q n := by
  have hsound := reachable_sound h
  exact ⟨fun ptr n => hsound.inUse_pos,fun ptr n ptr' n' => hsound.inUse_apart,
    fun size answer hfresh => (hsound.alloc_spec size hfresh).2,hsound.free_none,
    fun ptr p' hfree => (hsound.free_spec hfree).2⟩

theorem given_out_apart_some : somePool.free 0 = none :=
  ((given_out_apart somePool_reachable).2.2.2.1 0).mpr fun n hin =>
    absurd ((given_out_apart somePool_reachable).1 0 n hin).1 (lt_irrefl 0)

/-- A request is refused where it is for nothing or for more than an arena, and where no arena has room and there can be
no other, or the first is capped by too low a limit. -/
theorem refused_iff (h : Reachable lf_cb p) (size : UInt64) (answer : PageAnswer) :
    (p.alloc size answer).1 = 0 ↔ (size = 0 ∨ size > ARENA_SIZE) ∨
      (∀ a ∈ p.arenas, (a.alloc size).1 = 0) ∧ (p.Refused answer ∨
        p.arenas = [] ∧ 0 < answer.limit ∧ answer.limit.toNat < (align_up size ARENA_ALIGN).toNat) :=
  (reachable_sound h).alloc_null size answer

theorem refused_iff_nothing : (somePool.alloc 0 ⟨0,4096,true,true⟩).1 = 0 :=
  (refused_iff somePool_reachable 0 ⟨0,4096,true,true⟩).mpr (.inl (.inl rfl))

end Runs

end LockedPool

end Tkeycoin
