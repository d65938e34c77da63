import Mathlib.Data.List.AList
import Mathlib.Logic.Relation
import Tkeycoin.Chunks

/-! The arenas of the locked pool: memory that is given out in chunks, and comes back. -/
namespace Tkeycoin

/-- `(x + align - 1) & ~(align - 1)` -/
def align_up (x align : UInt64) : UInt64 := (x + align - 1) &&& ~~~(align - 1)

/-- `std::unordered_map<char*, ..>` -/
abbrev PointerMap (α : Type) := AList fun _ : ℕ => α

/-- `emplace`, which leaves what is there already. -/
def PointerMap.emplace {α : Type} (map : PointerMap α) (ptr : ℕ) (value : α) : PointerMap α :=
  if ptr ∈ map then map else map.insert ptr value

/-- `std::multimap<size_t, char*>` in its order. An iterator is the pair it points to. -/
abbrev SizeToChunkSortedMap := List (ℕ × ℕ)

namespace SizeToChunkSortedMap

/-- A pair comes behind those of its size. -/
def emplace (map : SizeToChunkSortedMap) (it : ℕ × ℕ) : SizeToChunkSortedMap :=
  map.takeWhile (fun c => c.1 ≤ it.1) ++ it :: map.dropWhile (fun c => c.1 ≤ it.1)

def lower_bound (map : SizeToChunkSortedMap) (size : ℕ) : Option (ℕ × ℕ) := map.find? fun c => size ≤ c.1

end SizeToChunkSortedMap

structure Arena where
  size_to_free_chunk : SizeToChunkSortedMap
  chunks_free : PointerMap (ℕ × ℕ)
  chunks_free_end : PointerMap (ℕ × ℕ)
  chunks_used : PointerMap ℕ
  base : ℕ
  end_ : ℕ
  alignment : UInt64

structure Arena.Stats where
  used : ℕ
  free : ℕ
  total : ℕ
  chunks_used : ℕ
  chunks_free : ℕ
  deriving DecidableEq

namespace Arena

/-- One free chunk that covers the entire arena. -/
def new (base_in size_in : ℕ) (alignment_in : UInt64) : Arena where
  size_to_free_chunk := [(size_in,base_in)]
  chunks_free := AList.singleton base_in (size_in,base_in)
  chunks_free_end := AList.singleton (base_in + size_in) (size_in,base_in)
  chunks_used := ∅
  base := base_in
  end_ := base_in + size_in
  alignment := alignment_in

/-- The pointer, which is null where the arena has no room. -/
def alloc (a : Arena) (size : UInt64) : ℕ × Arena :=
  let size := (align_up size a.alignment).toNat
  if size = 0 then (0,a) else
    match a.size_to_free_chunk.lower_bound size with
    | none => (0,a)
    | some it =>
      -- its space is taken from the end of the free chunk
      let size_remaining := it.1 - size
      let allocated := it.2 + size_remaining
      let chunks_used := a.chunks_used.emplace allocated size
      let chunks_free_end := a.chunks_free_end.erase (it.2 + it.1)
      if it.1 = size then
        (allocated,
          { a with
            chunks_used
            chunks_free_end
            chunks_free := a.chunks_free.erase it.2
            size_to_free_chunk := a.size_to_free_chunk.erase it })
      else
        let it_remaining := (size_remaining,it.2)
        (allocated,
          { a with
            chunks_used
            chunks_free := a.chunks_free.insert it.2 it_remaining
            chunks_free_end := PointerMap.emplace chunks_free_end (it.2 + size_remaining) it_remaining
            size_to_free_chunk := (a.size_to_free_chunk.emplace it_remaining).erase it })

/-- `coalesce freed with previous chunk` -/
def coalescePrevious (a : Arena) (freed : ℕ × ℕ) : Arena × (ℕ × ℕ) :=
  match a.chunks_free_end.lookup freed.1 with
  | none => (a,freed)
  | some prev =>
    ({ a with
        size_to_free_chunk := a.size_to_free_chunk.erase prev
        chunks_free_end := a.chunks_free_end.erase freed.1 },
      (freed.1 - prev.1,freed.2 + prev.1))

/-- `coalesce freed with chunk after freed` -/
def coalesceNext (a : Arena) (freed : ℕ × ℕ) : Arena × (ℕ × ℕ) :=
  match a.chunks_free.lookup (freed.1 + freed.2) with
  | none => (a,freed)
  | some next =>
    ({ a with
        size_to_free_chunk := a.size_to_free_chunk.erase next
        chunks_free := a.chunks_free.erase (freed.1 + freed.2) },
      (freed.1,freed.2 + next.1))

/-- `none` where it throws. -/
def free (a : Arena) (ptr : ℕ) : Option Arena :=
  if ptr = 0 then some a else
    match a.chunks_used.lookup ptr with
    | none => none
    | some size =>
      let (a,freed) := coalescePrevious { a with chunks_used := a.chunks_used.erase ptr } (ptr,size)
      let (a,freed) := coalesceNext a freed
      let it := (freed.2,freed.1)
      some
        { a with
          size_to_free_chunk := a.size_to_free_chunk.emplace it
          chunks_free := a.chunks_free.insert freed.1 it
          chunks_free_end := a.chunks_free_end.insert (freed.1 + freed.2) it }

def stats (a : Arena) : Stats :=
  let used := a.chunks_used.entries.foldl (fun r chunk => r + chunk.2) 0
  let free := a.chunks_free.entries.foldl (fun r chunk => r + chunk.2.1) 0
  ⟨used,free,used + free,a.chunks_used.entries.length,a.chunks_free.entries.length⟩

def addressInArena (a : Arena) (ptr : ℕ) : Bool := decide (ptr ≥ a.base) && decide (ptr < a.end_)

end Arena

section Maps

variable {α : Type} {map : PointerMap α} {R : ℕ → α → Prop}

/-- What a map relates its keys to. -/
def PointerMap.Has (map : PointerMap α) (R : ℕ → α → Prop) : Prop :=
  ∀ ptr value, map.lookup ptr = some value ↔ R ptr value

theorem PointerMap.Has.congr {S : ℕ → α → Prop} (h : map.Has R) (hS : ∀ ptr value, R ptr value ↔ S ptr value) :
    map.Has S :=
  fun ptr value => (h ptr value).trans (hS ptr value)

theorem PointerMap.has_empty : PointerMap.Has (∅ : PointerMap α) fun _ _ => False := by
  intro p value
  simp

theorem PointerMap.Has.erase (h : map.Has R) (ptr : ℕ) :
    PointerMap.Has (AList.erase ptr map) fun p value => p ≠ ptr ∧ R p value := by
  intro p value
  by_cases hp : p = ptr
  · subst hp
    simp [AList.lookup_erase]
  · rw [AList.lookup_erase_ne hp,h p value]
    simp [hp]

theorem PointerMap.Has.insert (h : map.Has R) (ptr : ℕ) (new : α) :
    PointerMap.Has (AList.insert ptr new map) fun p value => p = ptr ∧ value = new ∨ p ≠ ptr ∧ R p value := by
  intro p value
  by_cases hp : p = ptr
  · subst hp
    simp [AList.lookup_insert,eq_comm]
  · rw [AList.lookup_insert_ne hp,h p value]
    simp [hp]

theorem PointerMap.has_singleton (ptr : ℕ) (new : α) :
    PointerMap.Has (AList.singleton ptr new) fun p value => p = ptr ∧ value = new := by
  rw [← AList.insert_empty]
  refine (has_empty.insert ptr new).congr fun p value => ?_
  simp

theorem PointerMap.Has.emplace (h : map.Has R) {ptr : ℕ} (hnone : ∀ value, ¬ R ptr value) (new : α) :
    PointerMap.Has (map.emplace ptr new) fun p value => p = ptr ∧ value = new ∨ R p value := by
  have hptr : ptr ∉ map := by
    rw [← AList.lookup_eq_none,Option.eq_none_iff_forall_ne_some]
    exact fun value hvalue => hnone value ((h ptr value).mp hvalue)
  rw [PointerMap.emplace,if_neg hptr]
  refine (h.insert ptr new).congr fun p value => or_congr_right ⟨And.right,fun hR => ⟨?_,hR⟩⟩
  rintro rfl
  exact hnone value hR

/-- A map of iterators by what is their key. -/
def PointerMap.Keyed (map : PointerMap (ℕ × ℕ)) (key : ℕ × ℕ → ℕ) (nodes : ℕ × ℕ → Prop) : Prop :=
  map.Has fun ptr it => key it = ptr ∧ nodes it

section Keyed

variable {map : PointerMap (ℕ × ℕ)} {key : ℕ × ℕ → ℕ} {nodes nodes' : ℕ × ℕ → Prop}

theorem PointerMap.Keyed.congr (h : map.Keyed key nodes) (hnodes : ∀ it, nodes it ↔ nodes' it) : map.Keyed key nodes' :=
  Has.congr h fun _ it => and_congr_right fun _ => hnodes it

theorem PointerMap.keyed_singleton (key : ℕ × ℕ → ℕ) (new : ℕ × ℕ) :
    PointerMap.Keyed (AList.singleton (key new) new) key fun it => it = new := by
  refine (has_singleton (key new) new).congr fun ptr it => ?_
  constructor
  · rintro ⟨rfl,rfl⟩
    exact ⟨rfl,rfl⟩
  · rintro ⟨rfl,rfl⟩
    exact ⟨rfl,rfl⟩

theorem PointerMap.Keyed.erase (h : map.Keyed key nodes) (ptr : ℕ) :
    PointerMap.Keyed (AList.erase ptr map) key fun it => nodes it ∧ key it ≠ ptr := by
  refine (Has.erase h ptr).congr fun p it => ?_
  constructor
  · rintro ⟨hne,rfl,hit⟩
    exact ⟨rfl,hit,hne⟩
  · rintro ⟨rfl,hit,hne⟩
    exact ⟨hne,rfl,hit⟩

theorem PointerMap.Keyed.insert (h : map.Keyed key nodes) (new : ℕ × ℕ) :
    PointerMap.Keyed (AList.insert (key new) new map) key fun it => nodes it ∧ key it ≠ key new ∨ it = new := by
  refine (Has.insert h (key new) new).congr fun p it => ?_
  constructor
  · rintro (⟨rfl,rfl⟩ | ⟨hne,rfl,hit⟩)
    · exact ⟨rfl,.inr rfl⟩
    · exact ⟨rfl,.inl ⟨hit,hne⟩⟩
  · rintro ⟨rfl,⟨hit,hne⟩ | rfl⟩
    · exact .inr ⟨hne,rfl,hit⟩
    · exact .inl ⟨rfl,rfl⟩

theorem PointerMap.Keyed.emplace (h : map.Keyed key nodes) (new : ℕ × ℕ) (hnone : ∀ it, nodes it → key it ≠ key new) :
    PointerMap.Keyed (map.emplace (key new) new) key fun it => nodes it ∨ it = new := by
  refine (Has.emplace h (fun it hit => hnone it hit.2 hit.1) new).congr fun p it => ?_
  constructor
  · rintro (⟨rfl,rfl⟩ | ⟨rfl,hit⟩)
    · exact ⟨rfl,.inr rfl⟩
    · exact ⟨rfl,.inl hit⟩
  · rintro ⟨rfl,hit | rfl⟩
    · exact .inr ⟨rfl,hit⟩
    · exact .inl ⟨rfl,rfl⟩

end Keyed

theorem SizeToChunkSortedMap.mem_emplace {map : SizeToChunkSortedMap} {it c : ℕ × ℕ} :
    c ∈ map.emplace it ↔ c = it ∨ c ∈ map := by
  have hall := List.takeWhile_append_dropWhile (p := fun c : ℕ × ℕ => decide (c.1 ≤ it.1)) (l := map)
  conv_rhs => rw [← hall]
  rw [emplace,List.mem_append,List.mem_cons,List.mem_append]
  tauto

theorem SizeToChunkSortedMap.nodup_emplace {map : SizeToChunkSortedMap} {it : ℕ × ℕ} (h : map.Nodup)
    (hit : it ∉ map) : (map.emplace it).Nodup := by
  have hall := List.takeWhile_append_dropWhile (p := fun c : ℕ × ℕ => decide (c.1 ≤ it.1)) (l := map)
  rw [emplace,List.nodup_middle,hall,List.nodup_cons]
  exact ⟨hit,h⟩

theorem SizeToChunkSortedMap.sorted_emplace {map : SizeToChunkSortedMap} {it : ℕ × ℕ}
    (h : map.Pairwise fun c d => c.1 ≤ d.1) : (map.emplace it).Pairwise fun c d => c.1 ≤ d.1 := by
  induction map with
  | nil => exact List.pairwise_singleton _ _
  | cons c map ih =>
    rw [List.pairwise_cons] at h
    by_cases hc : c.1 ≤ it.1
    · have hemplace : emplace (c :: map) it = c :: emplace map it := by
        simp [emplace,hc]
      rw [hemplace,List.pairwise_cons]
      refine ⟨fun d hd => ?_,ih h.2⟩
      rcases mem_emplace.mp hd with rfl | hd
      · exact hc
      · exact h.1 d hd
    · have hemplace : emplace (c :: map) it = it :: c :: map := by
        simp [emplace,hc]
      rw [hemplace,List.pairwise_cons,List.pairwise_cons]
      refine ⟨fun d hd => ?_,h⟩
      rcases List.mem_cons.mp hd with rfl | hd
      · exact (Nat.lt_of_not_le hc).le
      · exact (Nat.lt_of_not_le hc).le.trans (h.1 d hd)

/-- The first pair that is large enough is the smallest such. -/
theorem SizeToChunkSortedMap.lower_bound_some {map : SizeToChunkSortedMap} {size : ℕ} {it : ℕ × ℕ}
    (h : map.Pairwise fun c d => c.1 ≤ d.1) (hit : map.lower_bound size = some it) :
    it ∈ map ∧ size ≤ it.1 ∧ ∀ c ∈ map, size ≤ c.1 → it.1 ≤ c.1 := by
  obtain ⟨hsize,front,back,rfl,hfront⟩ := List.find?_eq_some_iff_append.mp hit
  refine ⟨List.mem_append_right _ List.mem_cons_self,of_decide_eq_true hsize,fun c hc hle => ?_⟩
  rcases List.mem_append.mp hc with hc | hc
  · have hlt := hfront c hc
    simp only [Bool.not_eq_true',decide_eq_false_iff_not] at hlt
    exact absurd hle hlt
  · rcases List.mem_cons.mp hc with rfl | hc
    · exact le_refl _
    · exact (List.pairwise_cons.mp (List.pairwise_append.mp h).2.1).1 c hc

theorem SizeToChunkSortedMap.lower_bound_none {map : SizeToChunkSortedMap} {size : ℕ}
    (hnone : map.lower_bound size = none) : ∀ c ∈ map, c.1 < size := by
  intro c hc
  have hlt := List.find?_eq_none.mp hnone c hc
  simpa using hlt

end Maps

namespace Arena

variable {lo hi : ℕ}

/-- The free chunk that an iterator points to. -/
def Node (D : Division lo hi) (it : ℕ × ℕ) : Prop := ⟨it.2,it.1⟩ ∈ D.free

/-- The maps of an arena keep these chunks. -/
structure Keeps (a : Arena) (D : Division lo hi) : Prop where
  base : a.base = lo
  stop : a.end_ = hi
  used : a.chunks_used.Has fun ptr size => ⟨ptr,size⟩ ∈ D.used
  free : a.chunks_free.Keyed (fun it => it.2) (Node D)
  free_end : a.chunks_free_end.Keyed (fun it => it.2 + it.1) (Node D)
  sizes : ∀ it, it ∈ a.size_to_free_chunk ↔ Node D it
  nodup : a.size_to_free_chunk.Nodup
  sorted : a.size_to_free_chunk.Pairwise fun c d => c.1 ≤ d.1

theorem node_inj (it it' : ℕ × ℕ) : (⟨it.2,it.1⟩ : Chunk) = ⟨it'.2,it'.1⟩ ↔ it = it' := by
  rw [Chunk.mk.injEq,Prod.ext_iff]
  exact and_comm

theorem new_keeps (base_in : ℕ) {size_in : ℕ} (alignment_in : UInt64) (h : base_in < base_in + size_in) :
    (new base_in size_in alignment_in).Keeps (Division.whole h) := by
  have hwhole (it : ℕ × ℕ) : it = (size_in,base_in) ↔ Node (Division.whole h) it := by
    change _ ↔ (⟨it.2,it.1⟩ : Chunk) = ⟨base_in,base_in + size_in - base_in⟩
    rw [Nat.add_sub_cancel_left]
    exact (node_inj _ _).symm
  refine ⟨rfl,rfl,PointerMap.has_empty.congr fun ptr size => Iff.rfl,?_,?_,fun it => ?_,List.nodup_singleton _,
    List.pairwise_singleton _ _⟩
  · exact (PointerMap.keyed_singleton (fun it => it.2) (size_in,base_in)).congr hwhole
  · exact (PointerMap.keyed_singleton (fun it => it.2 + it.1) (size_in,base_in)).congr hwhole
  · rw [← hwhole]
    exact List.mem_singleton

section Nodes

variable {D : Division lo hi} {it it' : ℕ × ℕ}

theorem Node.eq_of_start (h : Node D it) (h' : Node D it') (hstart : it.2 = it'.2) : it = it' :=
  (node_inj _ _).mp (Division.eq_of_start (.inr h) (.inr h') hstart)

theorem Node.eq_of_stop (h : Node D it) (h' : Node D it') (hstop : it.2 + it.1 = it'.2 + it'.1) : it = it' :=
  (node_inj _ _).mp (Division.eq_of_stop (.inr h) (.inr h') hstop)

/-- The iterators behind a cut. -/
theorem node_cut (h : Node D it) {s : ℕ} (hpos : 0 < s) (hle : s ≤ it.1) :
    Node (D.cut h hpos hle) it' ↔ Node D it' ∧ it' ≠ it ∨ s < it.1 ∧ it' = (it.1 - s,it.2) := by
  change _ ∧ _ ≠ _ ∨ _ ∧ (⟨it'.2,it'.1⟩ : Chunk) = ⟨it.2,it.1 - s⟩ ↔ _
  rw [Ne,node_inj]
  exact or_congr_right (and_congr_right fun _ => node_inj _ (it.1 - s,it.2))

end Nodes

section Alloc

variable {a : Arena} {D : Division lo hi} {it : ℕ × ℕ} {s : ℕ}

/-- Where a free chunk is cut, no chunk in use starts. -/
theorem unused_cut (h : Node D it) (hpos : 0 < s) (hle : s ≤ it.1) (n : ℕ) : ⟨it.2 + (it.1 - s),n⟩ ∉ D.used := by
  intro hn
  have hapart := D.apart _ (.inl hn) _ (.inr h) (Division.ne_of_used hn h)
  have hnpos := D.pos _ (.inl hn)
  simp only [Chunk.Apart,Chunk.stop] at *
  omega

/-- Nor does another that is free stop there. -/
theorem no_stop_cut (h : Node D it) (hpos : 0 < s) (hlt : s < it.1) {it' : ℕ × ℕ} (h' : Node D it') :
    it'.2 + it'.1 ≠ it.2 + (it.1 - s) := by
  intro hstop
  have hne : (⟨it'.2,it'.1⟩ : Chunk) ≠ ⟨it.2,it.1⟩ := by
    rw [Ne,Chunk.mk.injEq]
    omega
  have hapart := D.apart _ (.inr h') _ (.inr h) hne
  simp only [Chunk.Apart,Chunk.stop] at *
  omega

/-- The end of a free chunk is put to use. -/
theorem alloc_cut (h : a.Keeps D) {size : UInt64} (hs : (align_up size a.alignment).toNat = s) (hpos : 0 < s)
    (hit : a.size_to_free_chunk.lower_bound s = some it) :
    ∃ (hc : Node D it) (hle : s ≤ it.1) (a' : Arena), a.alloc size = (it.2 + (it.1 - s),a') ∧
      a'.alignment = a.alignment ∧ a'.Keeps (D.cut hc hpos hle) := by
  obtain ⟨hmem,hle,-⟩ := SizeToChunkSortedMap.lower_bound_some h.sorted hit
  have hc := (h.sizes it).mp hmem
  have hused : PointerMap.Has (a.chunks_used.emplace (it.2 + (it.1 - s)) s) fun ptr size =>
      ⟨ptr,size⟩ ∈ (D.cut hc hpos hle).used := by
    refine (h.used.emplace (unused_cut hc hpos hle) s).congr fun ptr size => ?_
    change _ ↔ (⟨ptr,size⟩ : Chunk) = ⟨it.2 + (it.1 - s),s⟩ ∨ _
    rw [Chunk.mk.injEq]
  refine ⟨hc,hle,?_⟩
  simp only [alloc,hs,if_neg hpos.ne',hit]
  by_cases heq : it.1 = s
  · have hcut (i : ℕ × ℕ) : Node (D.cut hc hpos hle) i ↔ Node D i ∧ i ≠ it := by
      rw [node_cut]
      exact or_iff_left fun hlt => hlt.1.ne' heq
    rw [if_pos heq]
    refine ⟨_,rfl,rfl,h.base,h.stop,hused,?_,?_,fun i => ?_,h.nodup.erase it,h.sorted.sublist List.erase_sublist⟩
    · refine (h.free.erase it.2).congr fun i => ?_
      rw [hcut]
      exact and_congr_right fun hi => not_congr ⟨hi.eq_of_start hc,congrArg _⟩
    · refine (h.free_end.erase (it.2 + it.1)).congr fun i => ?_
      rw [hcut]
      exact and_congr_right fun hi => not_congr ⟨hi.eq_of_stop hc,congrArg fun j : ℕ × ℕ => j.2 + j.1⟩
    · rw [hcut,h.nodup.mem_erase_iff,h.sizes,and_comm]
  · have hlt : s < it.1 := lt_of_le_of_ne hle (Ne.symm heq)
    have hcut (i : ℕ × ℕ) : Node (D.cut hc hpos hle) i ↔ Node D i ∧ i ≠ it ∨ i = (it.1 - s,it.2) := by
      rw [node_cut]
      exact or_congr_right (and_iff_right hlt)
    have hnew : (it.1 - s,it.2) ∉ a.size_to_free_chunk := by
      intro hmem'
      have hsame := ((h.sizes _).mp hmem').eq_of_start hc rfl
      rw [Prod.ext_iff] at hsame
      omega
    have hnodup := SizeToChunkSortedMap.nodup_emplace h.nodup hnew
    rw [if_neg heq]
    refine ⟨_,rfl,rfl,h.base,h.stop,hused,?_,?_,fun i => ?_,hnodup.erase it,
      (SizeToChunkSortedMap.sorted_emplace h.sorted).sublist List.erase_sublist⟩
    · refine (h.free.insert (it.1 - s,it.2)).congr fun i => ?_
      rw [hcut]
      exact or_congr_left (and_congr_right fun hi => not_congr ⟨hi.eq_of_start hc,congrArg _⟩)
    · have hnone (i : ℕ × ℕ) (hi : Node D i ∧ i.2 + i.1 ≠ it.2 + it.1) : i.2 + i.1 ≠ it.2 + (it.1 - s) :=
        no_stop_cut hc hpos hlt hi.1
      have hend := (h.free_end.erase (it.2 + it.1)).emplace (it.1 - s,it.2) hnone
      refine hend.congr fun i => ?_
      rw [hcut]
      exact or_congr_left (and_congr_right fun hi =>
        not_congr ⟨hi.eq_of_stop hc,congrArg fun j : ℕ × ℕ => j.2 + j.1⟩)
    · rw [hcut,hnodup.mem_erase_iff,SizeToChunkSortedMap.mem_emplace,h.sizes]
      constructor
      · rintro ⟨hne,rfl | hi⟩
        · exact .inr rfl
        · exact .inl ⟨hi,hne⟩
      · rintro (⟨hi,hne⟩ | rfl)
        · exact ⟨hne,.inr hi⟩
        · refine ⟨fun hsame => hnew ?_,.inl rfl⟩
          rw [hsame]
          exact hmem

end Alloc

section Free

variable {a : Arena} {D : Division lo hi}

/-- What is left of the free chunks next to one that is released. -/
def Rest (D : Division lo hi) (c : Chunk) (it : ℕ × ℕ) : Prop :=
  Node D it ∧ it.2 + it.1 ≠ c.start ∧ it.2 ≠ c.stop

theorem node_release {c : Chunk} (hc : c ∈ D.used) {low high : ℕ} (hlow : D.Low c low) (hhigh : D.High c high)
    (it : ℕ × ℕ) : Node (D.release hc hlow hhigh) it ↔ Rest D c it ∨ it = (high - low,low) :=
  or_congr_right (node_inj _ (high - low,low))

/-- With the free chunk in front, if there is one. -/
theorem coalescePrevious_low (h : a.Keeps D) (c : Chunk) (chunks_used : PointerMap ℕ) :
    ∃ low free_end sizes, D.Low c low ∧
      coalescePrevious { a with chunks_used } (c.start,c.size) =
        ({ a with chunks_used, chunks_free_end := free_end, size_to_free_chunk := sizes },(low,c.stop - low)) ∧
      free_end.Keyed (fun it => it.2 + it.1) (fun it => Node D it ∧ it.2 + it.1 ≠ c.start) ∧
      (∀ it, it ∈ sizes ↔ Node D it ∧ it.2 + it.1 ≠ c.start) ∧ sizes.Nodup ∧
      sizes.Pairwise fun c d => c.1 ≤ d.1 := by
  cases hprev : a.chunks_free_end.lookup c.start with
  | none =>
    have hnone (it : ℕ × ℕ) (hit : Node D it) : it.2 + it.1 ≠ c.start := by
      intro hstop
      have hsome := (h.free_end c.start it).mpr ⟨hstop,hit⟩
      exact Option.some_ne_none it (hsome.symm.trans hprev)
    refine ⟨c.start,a.chunks_free_end,a.size_to_free_chunk,.inr ⟨fun b hb => hnone (b.size,b.start) hb,rfl⟩,?_,
      h.free_end.congr fun it => (and_iff_left_of_imp (hnone it)).symm,
      fun it => (h.sizes it).trans (and_iff_left_of_imp (hnone it)).symm,h.nodup,h.sorted⟩
    simp only [coalescePrevious,hprev,Chunk.stop,Nat.add_sub_cancel_left]
  | some prev =>
    obtain ⟨hstop,hnode⟩ : prev.2 + prev.1 = c.start ∧ Node D prev := (h.free_end c.start prev).mp hprev
    refine ⟨prev.2,_,_,.inl ⟨⟨prev.2,prev.1⟩,hnode,hstop,rfl⟩,?_,h.free_end.erase c.start,fun it => ?_,
      h.nodup.erase prev,h.sorted.sublist List.erase_sublist⟩
    · have hstart : c.start - prev.1 = prev.2 := by omega
      have hsize : c.size + prev.1 = c.stop - prev.2 := by
        rw [Chunk.stop,← hstop]
        omega
      simp only [coalescePrevious,hprev,hstart,hsize]
    · rw [h.nodup.mem_erase_iff,h.sizes,and_comm]
      refine and_congr_right fun hit => not_congr ⟨?_,fun heq => hit.eq_of_stop hnode (heq.trans hstop.symm)⟩
      rintro rfl
      exact hstop

/-- With the free chunk behind it, if there is one. -/
theorem coalesceNext_high {c : Chunk} (hfree : a.chunks_free.Keyed (fun it => it.2) (Node D)) {low : ℕ}
    (hlow : D.Low c low) (hc : c ∈ D.used)
    (hsizes : ∀ it, it ∈ a.size_to_free_chunk ↔ Node D it ∧ it.2 + it.1 ≠ c.start) (hnodup : a.size_to_free_chunk.Nodup)
    (hsorted : a.size_to_free_chunk.Pairwise fun c d => c.1 ≤ d.1) :
    ∃ high free sizes, D.High c high ∧
      coalesceNext a (low,c.stop - low) =
        ({ a with chunks_free := free, size_to_free_chunk := sizes },(low,high - low)) ∧
      free.Keyed (fun it => it.2) (fun it => Node D it ∧ it.2 ≠ c.stop) ∧
      (∀ it, it ∈ sizes ↔ Rest D c it) ∧ sizes.Nodup ∧ sizes.Pairwise fun c d => c.1 ≤ d.1 := by
  have hle := (hlow.le hc).2
  have hstop : low + (c.stop - low) = c.stop := by
    rw [Chunk.stop]
    omega
  cases hnext : a.chunks_free.lookup (low + (c.stop - low)) with
  | none =>
    have hnone (it : ℕ × ℕ) (hit : Node D it) : it.2 ≠ c.stop := by
      intro hstart
      have hsome := (hfree _ it).mpr ⟨hstart.trans hstop.symm,hit⟩
      exact Option.some_ne_none it (hsome.symm.trans hnext)
    refine ⟨c.stop,a.chunks_free,a.size_to_free_chunk,.inr ⟨fun e he => hnone (e.size,e.start) he,rfl⟩,?_,
      hfree.congr fun it => (and_iff_left_of_imp (hnone it)).symm,fun it => ?_,hnodup,hsorted⟩
    · simp only [coalesceNext,hnext]
    · rw [hsizes]
      exact and_congr_right fun hit => (and_iff_left (hnone it hit)).symm
  | some next =>
    obtain ⟨hkey,hnode⟩ := (hfree _ next).mp hnext
    have hstart : next.2 = c.stop := hkey.trans hstop
    refine ⟨next.2 + next.1,a.chunks_free.erase (low + (c.stop - low)),_,.inl ⟨⟨next.2,next.1⟩,hnode,hstart,rfl⟩,?_,?_,fun it => ?_,
      hnodup.erase next,hsorted.sublist List.erase_sublist⟩
    · have hsize : c.stop - low + next.1 = next.2 + next.1 - low := by
        omega
      simp only [coalesceNext,hnext,hsize]
    · refine (hfree.erase (low + (c.stop - low))).congr fun it => ?_
      rw [hstop]
    · rw [hnodup.mem_erase_iff,hsizes,and_comm,Rest,and_assoc]
      refine and_congr_right fun hit => and_congr_right fun _ =>
        not_congr ⟨?_,fun heq => hit.eq_of_start hnode (heq.trans hstart.symm)⟩
      rintro rfl
      exact hstart

/-- A chunk goes out of use. -/
theorem free_release (h : a.Keeps D) {ptr size : ℕ} (hptr : ptr ≠ 0) (hsize : a.chunks_used.lookup ptr = some size) :
    ∃ (hc : ⟨ptr,size⟩ ∈ D.used) (low high : ℕ) (hlow : D.Low ⟨ptr,size⟩ low) (hhigh : D.High ⟨ptr,size⟩ high)
      (a' : Arena), a.free ptr = some a' ∧ a'.alignment = a.alignment ∧ a'.Keeps (D.release hc hlow hhigh) := by
  have hc := (h.used ptr size).mp hsize
  obtain ⟨low,free_end,sizes,hlow,hprevious,hfree_end,hsizes,hnodup,hsorted⟩ :=
    coalescePrevious_low h ⟨ptr,size⟩ (a.chunks_used.erase ptr)
  obtain ⟨high,free,sizes',hhigh,hnext,hfree,hsizes',hnodup',hsorted'⟩ :=
    coalesceNext_high (a := { a with
      chunks_used := a.chunks_used.erase ptr, chunks_free_end := free_end, size_to_free_chunk := sizes })
      h.free hlow hc hsizes hnodup hsorted
  refine ⟨hc,low,high,hlow,hhigh,?_⟩
  have hle := (hlow.le hc).2
  have hge := (hhigh.le hc).1
  have hstop : low + (high - low) = high := by
    rw [Chunk.stop] at hge
    omega
  simp only [Arena.free,if_neg hptr,hsize]
  rw [hprevious]
  simp only [hnext]
  refine ⟨_,rfl,rfl,h.base,h.stop,?_,?_,?_,fun it => ?_,SizeToChunkSortedMap.nodup_emplace hnodup' ?_,
    SizeToChunkSortedMap.sorted_emplace hsorted'⟩
  · refine (h.used.erase ptr).congr fun p n => ?_
    change _ ↔ ⟨p,n⟩ ∈ D.used ∧ (⟨p,n⟩ : Chunk) ≠ ⟨ptr,size⟩
    rw [and_comm]
    refine and_congr_right fun hp => not_congr ⟨fun heq => Division.eq_of_start (.inl hp) (.inl hc) heq,fun heq => ?_⟩
    exact congrArg Chunk.start heq
  · refine (hfree.insert (high - low,low)).congr fun it => ?_
    rw [node_release,Rest,and_right_comm,and_assoc]
    exact or_congr_left (and_congr_right fun hit => and_congr_left fun _ => not_congr (hlow.start_iff hc hit))
  · refine (hfree_end.insert (high - low,low)).congr fun it => ?_
    rw [node_release,Rest,and_assoc,hstop]
    exact or_congr_left (and_congr_right fun hit => and_congr_right fun _ => not_congr (hhigh.stop_iff hc hit))
  · rw [SizeToChunkSortedMap.mem_emplace,hsizes',node_release,or_comm]
  · intro hnew
    obtain ⟨hnode,hfront,-⟩ := (hsizes' _).mp hnew
    exact hfront ((hlow.start_iff hc hnode).mp rfl)

end Free

end Arena

end Tkeycoin
