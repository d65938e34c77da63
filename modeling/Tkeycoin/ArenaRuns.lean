import Tkeycoin.Arena

/-! What holds of an arena behind any calls. -/
namespace Tkeycoin

section AlignUp

variable {k : ℕ}

theorem toNat_and_not_mask (hk : k < 64) (x : UInt64) :
    (x &&& ~~~(UInt64.ofNat (2^k) - 1)).toNat = x.toNat / 2^k * 2^k := by
  have hpow : 2^k < 2^64 := Nat.pow_lt_pow_right (by decide) hk
  have hone : 1 ≤ 2^k := Nat.one_le_two_pow
  have halign : (UInt64.ofNat (2^k)).toNat = 2^k := UInt64.toNat_ofNat_of_lt' hpow
  have hmask : (UInt64.ofNat (2^k) - 1).toNat = 2^k - 1 := by
    rw [UInt64.toNat_sub_of_le _ _ (by rw [UInt64.le_iff_toNat_le,halign]; exact hone),halign]
    rfl
  have hnot : (~~~(UInt64.ofNat (2^k) - 1)).toNat = 2^64 - (2^k - 1 + 1) := by
    rw [UInt64.toNat_not,hmask]
    simp only [UInt64.size]
    omega
  apply Nat.eq_of_testBit_eq
  intro i
  rw [UInt64.toNat_and,Nat.testBit_and,hnot,Nat.testBit_two_pow_sub_succ (by omega),Nat.testBit_two_pow_sub_one,
    Nat.testBit_mul_two_pow,Nat.testBit_div_two_pow]
  by_cases hi : i < 64
  · by_cases hik : i < k
    · simp [hik,Nat.not_le.mpr hik]
    · have hle : k ≤ i := Nat.le_of_not_lt hik
      simp [hi,hik,hle,Nat.sub_add_cancel hle]
  · have hbit : x.toNat.testBit i = false :=
      Nat.testBit_lt_two_pow (lt_of_lt_of_le x.toNat_lt (Nat.pow_le_pow_right (by decide) (Nat.le_of_not_lt hi)))
    have hle : k ≤ i := by omega
    simp [hbit,hi,Nat.sub_add_cancel hle]

/-- The next multiple. It is zero where that is beyond the numbers, and then nothing is given out. -/
theorem align_up_toNat (hk : k < 64) (x : UInt64) :
    (align_up x (UInt64.ofNat (2^k))).toNat = (x.toNat + 2^k - 1) % 2^64 / 2^k * 2^k := by
  have hpow : 2^k < 2^64 := Nat.pow_lt_pow_right (by decide) hk
  have halign : (UInt64.ofNat (2^k)).toNat = 2^k := UInt64.toNat_ofNat_of_lt' hpow
  rw [align_up,toNat_and_not_mask hk,UInt64.toNat_sub,UInt64.toNat_add,halign]
  have hone : 1 ≤ 2^k := Nat.one_le_two_pow
  have hlt := x.toNat_lt
  congr 2
  change (2^64 - 1 + (x.toNat + 2^k) % 2^64) % 2^64 = _
  omega

theorem align_up_cases (hk : k < 64) (x : UInt64) :
    2^k ∣ (align_up x (UInt64.ofNat (2^k))).toNat ∧
      (x.toNat ≤ (align_up x (UInt64.ofNat (2^k))).toNat ∧ (align_up x (UInt64.ofNat (2^k))).toNat < x.toNat + 2^k ∨
        (align_up x (UInt64.ofNat (2^k))).toNat = 0 ∧ 2^64 < x.toNat + 2^k) := by
  have hpow : 2^k < 2^64 := Nat.pow_lt_pow_right (by decide) hk
  have hone : 0 < 2^k := Nat.two_pow_pos k
  have hlt := x.toNat_lt
  rw [align_up_toNat hk]
  refine ⟨Nat.dvd_mul_left _ _,?_⟩
  by_cases hover : x.toNat + 2^k - 1 < 2^64
  · rw [Nat.mod_eq_of_lt hover]
    have hdiv := Nat.div_add_mod' (x.toNat + 2^k - 1) (2^k)
    have hmod := Nat.mod_lt (x.toNat + 2^k - 1) hone
    omega
  · refine .inr ⟨?_,by omega⟩
    rw [Nat.div_eq_of_lt (by omega),Nat.zero_mul]

end AlignUp

namespace Arena

/-- Calls that return. -/
inductive Step (a : Arena) : Arena → Prop
  | alloc (size : UInt64) : Step a (a.alloc size).2
  | free {ptr : ℕ} {a' : Arena} (h : a.free ptr = some a') : Step a a'

/-- Arenas behind any calls on a new one. -/
def Reachable (base size : ℕ) (alignment : UInt64) (a : Arena) : Prop :=
  Relation.ReflTransGen Step (new base size alignment) a

/-- A chunk that was given out and has not come back. -/
def InUse (a : Arena) (ptr size : ℕ) : Prop := a.chunks_used.lookup ptr = some size

section Steps

variable {lo hi : ℕ} {a : Arena} {D : Division lo hi}

theorem Keeps.inUse (h : a.Keeps D) {ptr size : ℕ} : a.InUse ptr size ↔ ⟨ptr,size⟩ ∈ D.used := h.used ptr size

/-- There is no room, or a chunk is cut. -/
theorem alloc_cases (h : a.Keeps D) (size : UInt64) {s : ℕ} (hs : (align_up size a.alignment).toNat = s) :
    (a.alloc size = (0,a) ∧ (s = 0 ∨ ∀ c ∈ D.free, c.size < s)) ∨
      ∃ (it : ℕ × ℕ) (hc : Node D it) (hpos : 0 < s) (hle : s ≤ it.1) (a' : Arena),
        a.alloc size = (it.2 + (it.1 - s),a') ∧ a'.alignment = a.alignment ∧ a'.Keeps (D.cut hc hpos hle) := by
  by_cases hpos : s = 0
  · refine .inl ⟨?_,.inl hpos⟩
    simp only [alloc,hs,if_pos hpos]
  · cases hit : a.size_to_free_chunk.lower_bound s with
    | none =>
      refine .inl ⟨?_,.inr fun c hc => ?_⟩
      · simp only [alloc,hs,if_neg hpos,hit]
      · exact SizeToChunkSortedMap.lower_bound_none hit (c.size,c.start) ((h.sizes _).mpr hc)
    | some it =>
      obtain ⟨hc,hle,hcut⟩ := alloc_cut h hs (Nat.pos_of_ne_zero hpos) hit
      exact .inr ⟨it,hc,Nat.pos_of_ne_zero hpos,hle,hcut⟩

/-- It throws, the pointer is null, or a chunk is released. -/
theorem free_cases (h : a.Keeps D) (ptr : ℕ) :
    (ptr = 0 ∧ a.free ptr = some a) ∨ (ptr ≠ 0 ∧ (∀ size, ¬ a.InUse ptr size) ∧ a.free ptr = none) ∨
      ptr ≠ 0 ∧ ∃ (size low high : ℕ) (hc : ⟨ptr,size⟩ ∈ D.used) (hlow : D.Low ⟨ptr,size⟩ low)
        (hhigh : D.High ⟨ptr,size⟩ high) (a' : Arena), a.free ptr = some a' ∧ a'.alignment = a.alignment ∧
          a'.Keeps (D.release hc hlow hhigh) := by
  by_cases hptr : ptr = 0
  · refine .inl ⟨hptr,?_⟩
    rw [Arena.free,if_pos hptr]
  · cases hsize : a.chunks_used.lookup ptr with
    | none =>
      refine .inr (.inl ⟨hptr,fun size hin => Option.some_ne_none size (hin.symm.trans hsize),?_⟩)
      simp only [Arena.free,if_neg hptr,hsize]
    | some size =>
      obtain ⟨hc,low,high,hlow,hhigh,hfree⟩ := free_release h hptr hsize
      exact .inr (.inr ⟨hptr,size,low,high,hc,hlow,hhigh,hfree⟩)

variable {k : ℕ}

/-- What a call preserves. -/
theorem step_keeps (hk : k < 64) (halign : a.alignment = UInt64.ofNat (2^k)) (h : a.Keeps D) {a' : Arena}
    (hstep : Step a a') : a'.alignment = a.alignment ∧ ∃ D' : Division lo hi, a'.Keeps D' ∧
      (D.Multiples (2^k) → D'.Multiples (2^k)) := by
  cases hstep with
  | alloc size =>
    rcases alloc_cases h size rfl with ⟨hnull,-⟩ | ⟨it,hc,hpos,hle,a',halloc,halign',hkeeps⟩
    · rw [hnull]
      exact ⟨rfl,D,h,id⟩
    · rw [halloc]
      refine ⟨halign',_,hkeeps,fun hmultiples => hmultiples.cut hc hpos hle ?_⟩
      rw [halign]
      exact (align_up_cases hk size).1
  | @free ptr a' hfree =>
    rcases free_cases h ptr with ⟨-,hsame⟩ | ⟨-,-,hnone⟩ | ⟨-,size,low,high,hc,hlow,hhigh,a'',hsome,halign',hkeeps⟩
    · obtain rfl := Option.some.inj (hfree.symm.trans hsame)
      exact ⟨rfl,D,h,id⟩
    · exact absurd (hfree.symm.trans hnone) (Option.some_ne_none a')
    · obtain rfl := Option.some.inj (hfree.symm.trans hsome)
      exact ⟨halign',_,hkeeps,fun hmultiples => hmultiples.release hc hlow hhigh⟩

/-- A call to `alloc` adds one chunk of at least the size asked for, or it changes nothing. -/
theorem alloc_adds (hk : k < 64) (halign : a.alignment = UInt64.ofNat (2^k)) (h : a.Keeps D) (hlo : 0 < lo)
    (request : UInt64) : a.alloc request = (0,a) ∨
      ∃ ptr n a', a.alloc request = (ptr,a') ∧ ptr ≠ 0 ∧ request.toNat ≤ n ∧ n < request.toNat + 2^k ∧
        (∀ m, ¬ a.InUse ptr m) ∧ ∀ p m, a'.InUse p m ↔ p = ptr ∧ m = n ∨ a.InUse p m := by
  rcases alloc_cases h request rfl with ⟨hnull,-⟩ | ⟨it,hc,hpos,hle,a',halloc,-,hkeeps'⟩
  · exact .inl hnull
  · have hstart := (D.inside _ (.inr hc)).1
    have hrequest := (align_up_cases hk request).2
    rw [← halign] at hrequest
    refine .inr ⟨_,(align_up request a.alignment).toNat,a',halloc,?_,?_,?_,?_,?_⟩
    · dsimp only at hstart
      omega
    · omega
    · omega
    · exact fun m hin => unused_cut hc hpos hle m (h.inUse.mp hin)
    · intro p m
      rw [hkeeps'.inUse,h.inUse]
      change (⟨p,m⟩ : Chunk) = ⟨_,_⟩ ∨ _ ↔ _
      rw [Chunk.mk.injEq]

/-- `free` throws for exactly the pointers that were not given out. -/
theorem free_none (h : a.Keeps D) (ptr : ℕ) : a.free ptr = none ↔ ptr ≠ 0 ∧ ∀ n, ¬ a.InUse ptr n := by
  rcases free_cases h ptr with ⟨hptr,hsame⟩ | ⟨hptr,hout,hnone⟩ | ⟨hptr,n,low,high,hc,-,-,a',hsome,-⟩
  · rw [hsame]
    exact ⟨fun hnone => absurd hnone (Option.some_ne_none a),fun hne => absurd hptr hne.1⟩
  · exact ⟨fun _ => ⟨hptr,hout⟩,fun _ => hnone⟩
  · rw [hsome]
    exact ⟨fun hnone => absurd hnone (Option.some_ne_none a'),fun hout => absurd (h.inUse.mpr hc) (hout.2 n)⟩

/-- It takes its chunk away. -/
theorem free_removes (h : a.Keeps D) (hlo : 0 < lo) {ptr : ℕ} {a' : Arena} (hfree : a.free ptr = some a') (p n : ℕ) :
    a'.InUse p n ↔ p ≠ ptr ∧ a.InUse p n := by
  rcases free_cases h ptr with ⟨rfl,hsame⟩ | ⟨-,-,hnone⟩ | ⟨-,m,low,high,hc,hlow,hhigh,a'',hsome,-,hkeeps'⟩
  · obtain rfl := Option.some.inj (hfree.symm.trans hsame)
    refine (and_iff_right_of_imp fun hin => ?_).symm
    have hstart := (D.inside _ (.inl (h.inUse.mp hin))).1
    dsimp only at hstart
    omega
  · exact absurd (hfree.symm.trans hnone) (Option.some_ne_none a')
  · obtain rfl := Option.some.inj (hfree.symm.trans hsome)
    rw [hkeeps'.inUse,h.inUse]
    change _ ∧ (⟨p,n⟩ : Chunk) ≠ ⟨ptr,m⟩ ↔ _
    rw [and_comm]
    refine and_congr_left fun hin => not_congr ⟨congrArg Chunk.start,fun heq => ?_⟩
    exact Division.eq_of_start (.inl hin) (.inl hc) heq

end Steps

section Runs

variable {base size k : ℕ} {a : Arena}

/-- Behind any calls, the maps of an arena keep a division of its memory. -/
theorem reachable_keeps (hk : k < 64) (hsize : 0 < size) (h : Reachable base size (UInt64.ofNat (2^k)) a) :
    a.alignment = UInt64.ofNat (2^k) ∧ ∃ D : Division base (base + size), a.Keeps D ∧
      (2^k ∣ base → 2^k ∣ size → D.Multiples (2^k)) := by
  induction h with
  | refl =>
    exact ⟨rfl,_,new_keeps base _ (Nat.lt_add_of_pos_right hsize),
      fun hbase hall => Division.whole_multiples _ hbase (Nat.dvd_add hbase hall)⟩
  | tail _ hstep ih =>
    obtain ⟨halign,D,hkeeps,hmultiples⟩ := ih
    obtain ⟨halign',D',hkeeps',himp⟩ := step_keeps hk halign hkeeps hstep
    exact ⟨halign'.trans halign,D',hkeeps',fun hbase hall => himp (hmultiples hbase hall)⟩

/-- Chunks in use lie in the arena, apart from each other. -/
def Apart (base size : ℕ) (a : Arena) : Prop :=
  (∀ ptr n, a.InUse ptr n → 0 < n ∧ base ≤ ptr ∧ ptr + n ≤ base + size) ∧
    ∀ ptr n ptr' n', a.InUse ptr n → a.InUse ptr' n' → ptr ≠ ptr' → ptr + n ≤ ptr' ∨ ptr' + n' ≤ ptr

theorem Keeps.apart {D : Division base (base + size)} (h : a.Keeps D) : Apart base size a := by
  refine ⟨fun ptr n hin => ?_,fun ptr n ptr' n' hin hin' hne => ?_⟩
  · have hc := h.inUse.mp hin
    exact ⟨D.pos _ (.inl hc),D.inside _ (.inl hc)⟩
  · exact D.apart _ (.inl (h.inUse.mp hin)) _ (.inl (h.inUse.mp hin')) fun heq => hne (congrArg Chunk.start heq)

/-- Sixty-four bytes at an address, of which the last sixteen are in use. -/
def someArena : Arena := ((new 4096 64 (UInt64.ofNat (2^4))).alloc 10).2

theorem someArena_reachable : Reachable 4096 64 (UInt64.ofNat (2^4)) someArena := .single (.alloc 10)

/-- In every state of an arena, what is in use lies apart. A call to `alloc` adds one chunk of at least the size asked
for, or it changes nothing. One to `free` takes its chunk away, and it throws for exactly the pointers that were not
given out. -/
theorem allocations_apart (hk : k < 64) (hbase : 0 < base) (hsize : 0 < size)
    (h : Reachable base size (UInt64.ofNat (2^k)) a) :
    Apart base size a ∧
      (2^k ∣ base → 2^k ∣ size → ∀ ptr n, a.InUse ptr n → 2^k ∣ ptr ∧ 2^k ∣ n) ∧
      (∀ request, a.alloc request = (0,a) ∨
        ∃ ptr n a', a.alloc request = (ptr,a') ∧ ptr ≠ 0 ∧ request.toNat ≤ n ∧ n < request.toNat + 2^k ∧
          (∀ m, ¬ a.InUse ptr m) ∧ ∀ p m, a'.InUse p m ↔ p = ptr ∧ m = n ∨ a.InUse p m) ∧
      (∀ ptr, a.free ptr = none ↔ ptr ≠ 0 ∧ ∀ n, ¬ a.InUse ptr n) ∧
      ∀ ptr a', a.free ptr = some a' → ∀ p n, a'.InUse p n ↔ p ≠ ptr ∧ a.InUse p n := by
  obtain ⟨halign,D,hkeeps,hmultiples⟩ := reachable_keeps hk hsize h
  exact ⟨hkeeps.apart,fun hb hs ptr n hin => hmultiples hb hs _ (.inl (hkeeps.inUse.mp hin)),
    alloc_adds hk halign hkeeps hbase,free_none hkeeps,fun ptr a' => free_removes hkeeps hbase⟩

theorem allocations_apart_some : Apart 4096 64 someArena :=
  (allocations_apart (by decide) (by decide) (by decide) someArena_reachable).1

theorem foldl_add {β : Type} (f : β → ℕ) (l : List β) (n : ℕ) :
    l.foldl (fun r chunk => r + f chunk) n = n + (l.map f).sum := by
  induction l generalizing n with
  | nil => rfl
  | cons c l ih => rw [List.foldl_cons,ih,List.map_cons,List.sum_cons,Nat.add_assoc]

theorem entries_nodup {α : Type} (map : PointerMap α) : map.entries.Nodup := List.NodupKeys.nodup map.nodupKeys

/-- The entries of a map are what it has. -/
theorem mem_entries {α : Type} {map : PointerMap α} {R : ℕ → α → Prop} (h : map.Has R) (e : (_ : ℕ) × α) :
    e ∈ map.entries ↔ R e.1 e.2 :=
  AList.mem_lookup_iff.symm.trans (h e.1 e.2)

theorem Keeps.total {D : Division base (base + size)} (h : a.Keeps D) : a.stats.total = size := by
  have hused (e : (_ : ℕ) × ℕ) : e ∈ a.chunks_used.entries ↔ ⟨e.1,e.2⟩ ∈ D.used := mem_entries h.used e
  have hfree (e : (_ : ℕ) × (ℕ × ℕ)) : e ∈ a.chunks_free.entries ↔ e.2.2 = e.1 ∧ Node D e.2 := mem_entries h.free e
  have hall := D.sum_sizes (l := (a.chunks_used.entries.map fun e => (⟨e.1,e.2⟩ : Chunk)) ++
    a.chunks_free.entries.map fun e => (⟨e.2.2,e.2.1⟩ : Chunk)) ?_ ?_
  · rw [List.map_append,List.sum_append,List.map_map,List.map_map,Nat.add_sub_cancel_left] at hall
    simp only [stats,foldl_add,Nat.zero_add]
    exact hall
  · refine List.Nodup.append ?_ ?_ ?_
    · refine (entries_nodup _).map ?_
      rintro ⟨p,n⟩ ⟨q,m⟩ heq
      rw [Chunk.mk.injEq] at heq
      obtain ⟨rfl,rfl⟩ : p = q ∧ n = m := heq
      rfl
    · refine List.Nodup.map_on ?_ (entries_nodup _)
      rintro ⟨p,it⟩ he ⟨q,it'⟩ he' heq
      obtain rfl : it = it' := (node_inj _ _).mp heq
      obtain rfl : p = q := ((hfree _).mp he).1.symm.trans ((hfree _).mp he').1
      rfl
    · intro c hc hc'
      obtain ⟨e,he,rfl⟩ := List.mem_map.mp hc
      obtain ⟨e',he',heq⟩ := List.mem_map.mp hc'
      have hnode := ((hfree e').mp he').2
      rw [Node,heq] at hnode
      exact D.one _ ((hused e).mp he) hnode
  · intro c
    rw [List.mem_append,List.mem_map,List.mem_map]
    refine or_congr ⟨?_,fun hc => ⟨⟨c.start,c.size⟩,(hused _).mpr hc,rfl⟩⟩
      ⟨?_,fun hc => ⟨⟨c.start,(c.size,c.start)⟩,(hfree _).mpr ⟨rfl,hc⟩,rfl⟩⟩
    · rintro ⟨e,he,rfl⟩
      exact (hused e).mp he
    · rintro ⟨e,he,rfl⟩
      exact ((hfree e).mp he).2

/-- Where nothing is in use, the arena has its one chunk again. -/
theorem Keeps.alone {D : Division base (base + size)} (h : a.Keeps D) (hsize : 0 < size)
    (hnone : ∀ ptr n, ¬ a.InUse ptr n) :
    a.size_to_free_chunk = [(size,base)] ∧ a.chunks_free.entries = [⟨base,(size,base)⟩] ∧ a.chunks_used.entries = [] := by
  have hempty : D.used = ∅ := Set.eq_empty_of_forall_notMem fun c hc => hnone c.start c.size (h.inUse.mpr hc)
  have hnode (it : ℕ × ℕ) : Node D it ↔ it = (size,base) := by
    rw [Node,Division.alone (by omega) hempty,Nat.add_sub_cancel_left]
    exact node_inj it (size,base)
  refine ⟨List.perm_singleton.mp ((List.perm_ext_iff_of_nodup h.nodup (List.nodup_singleton _)).mpr fun it => ?_),
    List.perm_singleton.mp ((List.perm_ext_iff_of_nodup (entries_nodup _) (List.nodup_singleton _)).mpr fun e => ?_),
    List.eq_nil_iff_forall_not_mem.mpr fun e he => hnone e.1 e.2 (AList.mem_lookup_iff.mpr he)⟩
  · rw [h.sizes,hnode,List.mem_singleton]
  · rw [mem_entries h.free,hnode,List.mem_singleton]
    obtain ⟨p,it⟩ := e
    constructor
    · rintro ⟨hkey,rfl⟩
      obtain rfl : base = p := hkey
      rfl
    · intro heq
      cases heq
      exact ⟨rfl,rfl⟩

/-- No space is lost: all of it is in chunks, a call for memory fails only where no gap between the chunks in use is
large enough, and behind the last `free` the arena is in one piece. -/
theorem no_space_lost (hk : k < 64) (hbase : 0 < base) (hsize : 0 < size)
    (h : Reachable base size (UInt64.ofNat (2^k)) a) :
    a.stats.total = size ∧
      (∀ request s, (align_up request (UInt64.ofNat (2^k))).toNat = s → ((a.alloc request).1 = 0 ↔
        s = 0 ∨ ∀ x, base ≤ x → x + s ≤ base + size → ∃ ptr n, a.InUse ptr n ∧ ptr < x + s ∧ x < ptr + n)) ∧
      ((∀ ptr n, ¬ a.InUse ptr n) → a.size_to_free_chunk = [(size,base)] ∧ a.stats = ⟨0,size,size,0,1⟩) := by
  obtain ⟨halign,D,hkeeps,-⟩ := reachable_keeps hk hsize h
  refine ⟨hkeeps.total,fun request s hs => ?_,fun hnone => ?_⟩
  · rw [← halign] at hs
    rcases alloc_cases hkeeps request hs with ⟨hnull,hfull⟩ | ⟨it,hc,hpos,hle,a',halloc,-,-⟩
    · rw [hnull]
      refine iff_of_true rfl ?_
      by_cases hzero : s = 0
      · exact .inl hzero
      · refine .inr fun x hlo hhi => ?_
        by_contra hgap
        have hunused : ∀ c ∈ D.used, c.Apart ⟨x,s⟩ := by
          intro c hc
          by_contra hnot
          refine hgap ⟨c.start,c.size,hkeeps.inUse.mpr hc,?_⟩
          simp only [Chunk.Apart,Chunk.stop] at hnot
          omega
        obtain ⟨c,hc,hstart,hstop⟩ := Division.room (Nat.pos_of_ne_zero hzero) hlo hhi hunused
        have hsmall := (hfull.resolve_left hzero) c hc
        rw [Chunk.stop] at hstop
        omega
    · have hinside := D.inside _ (.inr hc)
      simp only [Chunk.stop] at hinside
      rw [halloc]
      refine iff_of_false (by dsimp only; omega) ?_
      rintro (hzero | hfull)
      · exact hpos.ne' hzero
      · obtain ⟨ptr,n,hin,hbefore,hbehind⟩ := hfull (it.2 + (it.1 - s)) (by omega) (by omega)
        have hused := hkeeps.inUse.mp hin
        have hapart := D.apart _ (.inl hused) _ (.inr hc) (Division.ne_of_used hused hc)
        simp only [Chunk.Apart,Chunk.stop] at hapart
        omega
  · obtain ⟨hsizes,hfree,hused⟩ := hkeeps.alone hsize hnone
    refine ⟨hsizes,?_⟩
    simp only [stats,hfree,hused]
    simp

theorem no_space_lost_some : someArena.stats.total = 64 :=
  (no_space_lost (by decide) (by decide) (by decide) someArena_reachable).1

end Runs

end Arena

end Tkeycoin
