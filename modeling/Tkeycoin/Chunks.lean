import Mathlib

/-! A range of addresses that is divided into chunks, of which some are in use. -/
namespace Tkeycoin

/-- So many addresses from one on. -/
structure Chunk where
  start : ℕ
  size : ℕ
  deriving DecidableEq

namespace Chunk

def stop (c : Chunk) : ℕ := c.start + c.size

/-- No address is in both. -/
def Apart (c d : Chunk) : Prop := c.stop ≤ d.start ∨ d.stop ≤ c.start

end Chunk

/-- The chunks of a range. Every address is in one of them, and no two that are free are neighbours. -/
structure Division (lo hi : ℕ) where
  used : Set Chunk
  free : Set Chunk
  pos : ∀ c ∈ used ∪ free, 0 < c.size
  inside : ∀ c ∈ used ∪ free, lo ≤ c.start ∧ c.stop ≤ hi
  apart : ∀ c ∈ used ∪ free, ∀ d ∈ used ∪ free, c ≠ d → c.Apart d
  covers : ∀ x, lo ≤ x → x < hi → ∃ c ∈ used ∪ free, c.start ≤ x ∧ x < c.stop
  one : ∀ c ∈ used, c ∉ free
  merged : ∀ c ∈ free, ∀ d ∈ free, c.stop ≠ d.start

namespace Division

variable {lo hi : ℕ}

/-- Where nothing is in use yet. -/
def whole (h : lo < hi) : Division lo hi where
  used := ∅
  free := {⟨lo,hi - lo⟩}
  pos := by
    rintro c (hc | rfl)
    · exact absurd hc (Set.notMem_empty c)
    · exact Nat.sub_pos_of_lt h
  inside := by
    rintro c (hc | rfl)
    · exact absurd hc (Set.notMem_empty c)
    · simp only [Chunk.stop]
      omega
  apart := by
    rintro c (hc | rfl) d (hd | rfl) hne
    · exact absurd hc (Set.notMem_empty c)
    · exact absurd hc (Set.notMem_empty c)
    · exact absurd hd (Set.notMem_empty d)
    · exact absurd rfl hne
  covers := by
    intro x hlo hhi
    refine ⟨_,.inr rfl,hlo,?_⟩
    simp only [Chunk.stop]
    omega
  one := fun c hc => absurd hc (Set.notMem_empty c)
  merged := by
    rintro c rfl d rfl
    simp only [Chunk.stop]
    omega

variable (D : Division lo hi)

section Facts

variable {D} {c d : Chunk}

theorem eq_of_start (hc : c ∈ D.used ∪ D.free) (hd : d ∈ D.used ∪ D.free) (h : c.start = d.start) : c = d := by
  by_contra hne
  have hcpos := D.pos c hc
  have hdpos := D.pos d hd
  have hapart := D.apart c hc d hd hne
  simp only [Chunk.Apart,Chunk.stop] at hapart
  omega

theorem eq_of_stop (hc : c ∈ D.used ∪ D.free) (hd : d ∈ D.used ∪ D.free) (h : c.stop = d.stop) : c = d := by
  by_contra hne
  have hcpos := D.pos c hc
  have hdpos := D.pos d hd
  have hapart := D.apart c hc d hd hne
  simp only [Chunk.Apart,Chunk.stop] at hapart h
  omega

theorem ne_of_used (hc : c ∈ D.used) (hd : d ∈ D.free) : c ≠ d := by
  intro h
  rw [h] at hc
  exact D.one d hc hd

/-- Where no chunk in use has an address, a single free chunk has them all. -/
theorem room {x s : ℕ} (hs : 0 < s) (hlo : lo ≤ x) (hhi : x + s ≤ hi)
    (h : ∀ c ∈ D.used, c.Apart ⟨x,s⟩) : ∃ c ∈ D.free, c.start ≤ x ∧ x + s ≤ c.stop := by
  have hfree (y : ℕ) (hy : x ≤ y) (hlt : y < x + s) : ∃ c ∈ D.free, c.start ≤ y ∧ y < c.stop := by
    obtain ⟨c,hc | hc,hstart,hstop⟩ := D.covers y (by omega) (by omega)
    · have hapart := h c hc
      simp only [Chunk.Apart,Chunk.stop] at hapart hstop
      omega
    · exact ⟨c,hc,hstart,hstop⟩
  obtain ⟨c,hc,hstart,hstop⟩ := hfree x (le_refl x) (by omega)
  refine ⟨c,hc,hstart,?_⟩
  by_contra hlong
  -- the address behind it would be in a free neighbour
  obtain ⟨d,hd,hdstart,hdstop⟩ := hfree c.stop (by omega) (by omega)
  have hne : c ≠ d := by
    intro heq
    rw [heq] at hdstop
    omega
  have hapart := D.apart c (.inr hc) d (.inr hd) hne
  have hmerged := D.merged c hc d hd
  simp only [Chunk.Apart,Chunk.stop] at *
  omega

/-- Where nothing is in use, all is in one piece. -/
theorem alone (h : lo < hi) (hnone : D.used = ∅) : D.free = {⟨lo,hi - lo⟩} := by
  have hunused : ∀ c ∈ D.used, c.Apart ⟨lo,hi - lo⟩ := by
    intro c hc
    rw [hnone] at hc
    exact absurd hc (Set.notMem_empty c)
  obtain ⟨c,hc,hstart,hstop⟩ := room (by omega) (le_refl lo) (by omega) hunused
  have hinside := D.inside c (.inr hc)
  have hall : c = ⟨lo,hi - lo⟩ := by
    rw [Chunk.mk.injEq]
    simp only [Chunk.stop] at *
    omega
  apply Set.eq_singleton_iff_unique_mem.mpr
  refine ⟨hall ▸ hc,fun d hd => ?_⟩
  by_contra hne
  have hapart := D.apart c (.inr hc) d (.inr hd) fun heq => hne (heq.symm.trans hall)
  have hd' := D.inside d (.inr hd)
  have hpos := D.pos d (.inr hd)
  simp only [Chunk.Apart,Chunk.stop] at *
  omega

end Facts

/-- The last `s` addresses of a free chunk are put to use. -/
def cut {c : Chunk} (hc : c ∈ D.free) {s : ℕ} (hs : 0 < s) (hle : s ≤ c.size) : Division lo hi where
  used := insert ⟨c.start + (c.size - s),s⟩ D.used
  free := {d | d ∈ D.free ∧ d ≠ c ∨ s < c.size ∧ d = ⟨c.start,c.size - s⟩}
  pos := by
    rintro d ((rfl | hd) | ⟨hd,-⟩ | ⟨hlt,rfl⟩)
    · exact hs
    · exact D.pos d (.inl hd)
    · exact D.pos d (.inr hd)
    · exact Nat.sub_pos_of_lt hlt
  inside := by
    have hinside := D.inside c (.inr hc)
    rintro d ((rfl | hd) | ⟨hd,-⟩ | ⟨-,rfl⟩)
    · simp only [Chunk.stop] at *
      omega
    · exact D.inside d (.inl hd)
    · exact D.inside d (.inr hd)
    · simp only [Chunk.stop] at *
      omega
  apart := by
    have hold (d : Chunk) (hd : d ∈ D.used ∪ D.free) (hne : d ≠ c) := D.apart d hd c (.inr hc) hne
    have hused (d : Chunk) (hd : d ∈ D.used) := hold d (.inl hd) (ne_of_used hd hc)
    simp only [Chunk.Apart,Chunk.stop] at *
    rintro d ((rfl | hd) | ⟨hd,hdc⟩ | ⟨hlt,rfl⟩) e ((rfl | he) | ⟨he,hec⟩ | ⟨hlt',rfl⟩) hne
    · exact absurd rfl hne
    · have := hused e he
      dsimp only
      omega
    · have := hold e (.inr he) hec
      dsimp only
      omega
    · dsimp only
      omega
    · have := hused d hd
      dsimp only
      omega
    · exact D.apart d (.inl hd) e (.inl he) hne
    · exact D.apart d (.inl hd) e (.inr he) hne
    · have := hused d hd
      dsimp only
      omega
    · have := hold d (.inr hd) hdc
      dsimp only
      omega
    · exact D.apart d (.inr hd) e (.inl he) hne
    · exact D.apart d (.inr hd) e (.inr he) hne
    · have := hold d (.inr hd) hdc
      dsimp only
      omega
    · dsimp only
      omega
    · have := hused e he
      dsimp only
      omega
    · have := hold e (.inr he) hec
      dsimp only
      omega
    · exact absurd rfl hne
  covers := by
    intro x hlo hhi
    obtain ⟨d,hd,hstart,hstop⟩ := D.covers x hlo hhi
    by_cases hdc : d = c
    · subst hdc
      simp only [Chunk.stop] at hstop
      by_cases hx : x < d.start + (d.size - s)
      · exact ⟨_,.inr (.inr ⟨by omega,rfl⟩),hstart,hx⟩
      · refine ⟨_,.inl (.inl rfl),by dsimp only; omega,?_⟩
        simp only [Chunk.stop]
        omega
    · rcases hd with hd | hd
      · exact ⟨d,.inl (.inr hd),hstart,hstop⟩
      · exact ⟨d,.inr (.inl ⟨hd,hdc⟩),hstart,hstop⟩
  one := by
    rintro d (rfl | hd) (⟨hd',hne⟩ | ⟨hlt,heq⟩)
    · have hapart := D.apart _ (.inr hd') c (.inr hc) hne
      simp only [Chunk.Apart,Chunk.stop] at hapart
      omega
    · rw [Chunk.mk.injEq] at heq
      omega
    · exact D.one d hd hd'
    · subst heq
      have hapart := D.apart _ (.inl hd) c (.inr hc) (ne_of_used hd hc)
      simp only [Chunk.Apart,Chunk.stop] at hapart
      omega
  merged := by
    rintro d (⟨hd,hdc⟩ | ⟨hlt,rfl⟩) e (⟨he,hec⟩ | ⟨hlt',rfl⟩)
    · exact D.merged d hd e he
    · exact D.merged d hd c hc
    · have hapart := D.apart e (.inr he) c (.inr hc) hec
      have hpos := D.pos e (.inr he)
      simp only [Chunk.Apart,Chunk.stop] at *
      omega
    · simp only [Chunk.stop]
      omega

/-- Where a chunk begins together with the free space in front of it. -/
def Low (c : Chunk) (low : ℕ) : Prop :=
  (∃ b ∈ D.free, b.stop = c.start ∧ b.start = low) ∨ (∀ b ∈ D.free, b.stop ≠ c.start) ∧ low = c.start

/-- Where it ends together with the free space behind it. -/
def High (c : Chunk) (high : ℕ) : Prop :=
  (∃ e ∈ D.free, e.start = c.stop ∧ e.stop = high) ∨ (∀ e ∈ D.free, e.start ≠ c.stop) ∧ high = c.stop

section Neighbours

variable {D} {c d : Chunk} {low high : ℕ}

theorem Low.le (h : D.Low c low) (hc : c ∈ D.used) : lo ≤ low ∧ low ≤ c.start := by
  rcases h with ⟨b,hb,hstop,rfl⟩ | ⟨-,rfl⟩
  · have hinside := D.inside b (.inr hb)
    simp only [Chunk.stop] at *
    omega
  · exact ⟨(D.inside c (.inl hc)).1,le_refl _⟩

theorem High.le (h : D.High c high) (hc : c ∈ D.used) : c.stop ≤ high ∧ high ≤ hi := by
  rcases h with ⟨e,he,hstart,rfl⟩ | ⟨-,rfl⟩
  · have hinside := D.inside e (.inr he)
    simp only [Chunk.stop] at *
    omega
  · exact ⟨le_refl _,(D.inside c (.inl hc)).2⟩

/-- A free neighbour in front is where the space begins. -/
theorem Low.of_neighbour (h : D.Low c low) (hd : d ∈ D.free) (hstop : d.stop = c.start) : low = d.start := by
  rcases h with ⟨b,hb,hb',rfl⟩ | ⟨hnone,-⟩
  · rw [eq_of_stop (.inr hd) (.inr hb) (hstop.trans hb'.symm)]
  · exact absurd hstop (hnone d hd)

theorem High.of_neighbour (h : D.High c high) (hd : d ∈ D.free) (hstart : d.start = c.stop) : high = d.stop := by
  rcases h with ⟨e,he,he',rfl⟩ | ⟨hnone,-⟩
  · rw [eq_of_start (.inr hd) (.inr he) (hstart.trans he'.symm)]
  · exact absurd hstart (hnone d hd)

theorem Low.start_iff (h : D.Low c low) (hc : c ∈ D.used) (hd : d ∈ D.free) : d.start = low ↔ d.stop = c.start := by
  refine ⟨fun hstart => ?_,fun hstop => (h.of_neighbour hd hstop).symm⟩
  rcases h with ⟨b,hb,hstop,rfl⟩ | ⟨-,rfl⟩
  · rw [eq_of_start (.inr hd) (.inr hb) hstart]
    exact hstop
  · exact absurd (eq_of_start (.inl hc) (.inr hd) hstart.symm) (ne_of_used hc hd)

theorem High.stop_iff (h : D.High c high) (hc : c ∈ D.used) (hd : d ∈ D.free) : d.stop = high ↔ d.start = c.stop := by
  refine ⟨fun hstop => ?_,fun hstart => (h.of_neighbour hd hstart).symm⟩
  rcases h with ⟨e,he,hstart,rfl⟩ | ⟨-,rfl⟩
  · rw [eq_of_stop (.inr hd) (.inr he) hstop]
    exact hstart
  · exact absurd (eq_of_stop (.inl hc) (.inr hd) hstop.symm) (ne_of_used hc hd)

/-- Other chunks, but for the free neighbours, are outside of all of it. -/
theorem outside (hlow : D.Low c low) (hhigh : D.High c high) (hc : c ∈ D.used) (hd : d ∈ D.used ∪ D.free)
    (hne : d ≠ c) (hfree : d ∈ D.free → d.stop ≠ c.start ∧ d.start ≠ c.stop) : d.stop ≤ low ∨ high ≤ d.start := by
  have hpos := D.pos d hd
  have hcpos := D.pos c (.inl hc)
  have hapart := D.apart d hd c (.inl hc) hne
  have hfront : d.stop ≤ c.start → d.stop ≤ low := by
    intro hle
    rcases hlow with ⟨b,hb,hstop,rfl⟩ | ⟨-,rfl⟩
    · have hdb : d ≠ b := by
        rintro rfl
        exact (hfree hb).1 hstop
      have hbpos := D.pos b (.inr hb)
      have hb' := D.apart d hd b (.inr hb) hdb
      simp only [Chunk.Apart,Chunk.stop] at *
      omega
    · exact hle
  have hback : c.stop ≤ d.start → high ≤ d.start := by
    intro hle
    rcases hhigh with ⟨e,he,hstart,rfl⟩ | ⟨-,rfl⟩
    · have hde : d ≠ e := by
        rintro rfl
        exact (hfree he).2 hstart
      have hepos := D.pos e (.inr he)
      have he' := D.apart d hd e (.inr he) hde
      simp only [Chunk.Apart,Chunk.stop] at *
      omega
    · exact hle
  exact hapart.imp hfront hback

end Neighbours

/-- A chunk goes out of use, and makes one piece with its free neighbours. -/
def release {c : Chunk} (hc : c ∈ D.used) {low high : ℕ} (hlow : D.Low c low) (hhigh : D.High c high) :
    Division lo hi where
  used := D.used \ {c}
  free := {d | d ∈ D.free ∧ d.stop ≠ c.start ∧ d.start ≠ c.stop ∨ d = ⟨low,high - low⟩}
  pos := by
    have hcpos := D.pos c (.inl hc)
    have hle := hlow.le hc
    have hge := hhigh.le hc
    rintro d (⟨hd,-⟩ | ⟨hd,-⟩ | rfl)
    · exact D.pos d (.inl hd)
    · exact D.pos d (.inr hd)
    · simp only [Chunk.stop] at *
      omega
  inside := by
    have hle := hlow.le hc
    have hge := hhigh.le hc
    rintro d (⟨hd,-⟩ | ⟨hd,-⟩ | rfl)
    · exact D.inside d (.inl hd)
    · exact D.inside d (.inr hd)
    · simp only [Chunk.stop] at *
      omega
  apart := by
    have hle := (hlow.le hc).2
    have hge := (hhigh.le hc).1
    have hstop : low + (high - low) = high := by
      simp only [Chunk.stop] at hge
      omega
    have hused (d : Chunk) (hd : d ∈ D.used) (hne : d ≠ c) : d.stop ≤ low ∨ high ≤ d.start :=
      outside hlow hhigh hc (.inl hd) hne fun hfree => absurd hfree (D.one d hd)
    have hfree (d : Chunk) (hd : d ∈ D.free) (hout : d.stop ≠ c.start ∧ d.start ≠ c.stop) :
        d.stop ≤ low ∨ high ≤ d.start :=
      outside hlow hhigh hc (.inr hd) (ne_of_used hc hd).symm fun _ => hout
    rintro d (⟨hd,hdc⟩ | ⟨hd,hdout⟩ | rfl) e (⟨he,hec⟩ | ⟨he,heout⟩ | rfl) hne
    · exact D.apart d (.inl hd) e (.inl he) hne
    · exact D.apart d (.inl hd) e (.inr he) hne
    · simpa only [Chunk.Apart,Chunk.stop,hstop] using hused d hd hdc
    · exact D.apart d (.inr hd) e (.inl he) hne
    · exact D.apart d (.inr hd) e (.inr he) hne
    · simpa only [Chunk.Apart,Chunk.stop,hstop] using hfree d hd hdout
    · simpa only [Chunk.Apart,Chunk.stop,hstop] using (hused e he hec).symm
    · simpa only [Chunk.Apart,Chunk.stop,hstop] using (hfree e he heout).symm
    · exact absurd rfl hne
  covers := by
    have hle := (hlow.le hc).2
    have hge := (hhigh.le hc).1
    have hnew (x : ℕ) (hlx : low ≤ x) (hxh : x < high) :
        ∃ d ∈ D.used \ {c} ∪ {d | d ∈ D.free ∧ d.stop ≠ c.start ∧ d.start ≠ c.stop ∨ d = ⟨low,high - low⟩},
          d.start ≤ x ∧ x < d.stop := by
      refine ⟨_,.inr (.inr rfl),hlx,?_⟩
      simp only [Chunk.stop]
      omega
    intro x hlo hhi
    obtain ⟨d,hd | hd,hstart,hstop⟩ := D.covers x hlo hhi
    · by_cases hdc : d = c
      · subst hdc
        exact hnew x (hle.trans hstart) (lt_of_lt_of_le hstop hge)
      · exact ⟨d,.inl ⟨hd,hdc⟩,hstart,hstop⟩
    · by_cases hfront : d.stop = c.start
      · have hl := hlow.of_neighbour hd hfront
        refine hnew x (hl.trans_le hstart) ?_
        simp only [Chunk.stop] at *
        omega
      · by_cases hback : d.start = c.stop
        · have hh := hhigh.of_neighbour hd hback
          refine hnew x ?_ (hstop.trans_eq hh.symm)
          simp only [Chunk.stop] at *
          omega
        · exact ⟨d,.inr (.inl ⟨hd,hfront,hback⟩),hstart,hstop⟩
  one := by
    rintro d ⟨hd,hdc⟩ (⟨hd',-⟩ | rfl)
    · exact D.one d hd hd'
    · have hpos := D.pos _ (.inl hd)
      have hout := outside hlow hhigh hc (.inl hd) hdc fun hfree => absurd hfree (D.one _ hd)
      simp only [Chunk.stop] at *
      omega
  merged := by
    have hcpos := D.pos c (.inl hc)
    have hle := (hlow.le hc).2
    have hge := (hhigh.le hc).1
    have hstop : low + (high - low) = high := by
      simp only [Chunk.stop] at hge
      omega
    rintro d (⟨hd,hdout⟩ | rfl) e (⟨he,heout⟩ | rfl)
    · exact D.merged d hd e he
    · rcases hlow with ⟨b,hb,-,rfl⟩ | ⟨-,rfl⟩
      · exact D.merged d hd b hb
      · exact hdout.1
    · simp only [Chunk.stop,hstop]
      rcases hhigh with ⟨b,hb,-,rfl⟩ | ⟨-,rfl⟩
      · exact D.merged b hb e he
      · exact heout.2.symm
    · simp only [Chunk.stop] at *
      omega

/-- Every chunk begins and ends at a multiple. -/
def Multiples (k : ℕ) : Prop := ∀ c ∈ D.used ∪ D.free, k ∣ c.start ∧ k ∣ c.size

section Multiples

variable {D} {k : ℕ} {c : Chunk}

theorem whole_multiples (h : lo < hi) (hlo : k ∣ lo) (hhi : k ∣ hi) : (whole h).Multiples k := by
  rintro c (hc | rfl)
  · exact absurd hc (Set.notMem_empty c)
  · exact ⟨hlo,Nat.dvd_sub hhi hlo⟩

theorem Multiples.cut (h : D.Multiples k) (hc : c ∈ D.free) {s : ℕ} (hs : 0 < s) (hle : s ≤ c.size) (hk : k ∣ s) :
    (D.cut hc hs hle).Multiples k := by
  obtain ⟨hstart,hsize⟩ := h c (.inr hc)
  have hrest : k ∣ c.size - s := Nat.dvd_sub hsize hk
  rintro d ((rfl | hd) | ⟨hd,-⟩ | ⟨-,rfl⟩)
  · exact ⟨Nat.dvd_add hstart hrest,hk⟩
  · exact h d (.inl hd)
  · exact h d (.inr hd)
  · exact ⟨hstart,hrest⟩

theorem Multiples.release (h : D.Multiples k) (hc : c ∈ D.used) {low high : ℕ} (hlow : D.Low c low)
    (hhigh : D.High c high) : (D.release hc hlow hhigh).Multiples k := by
  have hl : k ∣ low := by
    rcases hlow with ⟨b,hb,-,rfl⟩ | ⟨-,rfl⟩
    · exact (h b (.inr hb)).1
    · exact (h c (.inl hc)).1
  have hh : k ∣ high := by
    rcases hhigh with ⟨e,he,-,rfl⟩ | ⟨-,rfl⟩
    · exact Nat.dvd_add (h e (.inr he)).1 (h e (.inr he)).2
    · exact Nat.dvd_add (h c (.inl hc)).1 (h c (.inl hc)).2
  rintro d (⟨hd,-⟩ | ⟨hd,-⟩ | rfl)
  · exact h d (.inl hd)
  · exact h d (.inr hd)
  · exact ⟨hl,Nat.dvd_sub hh hl⟩

end Multiples

/-- The chunks are as large as the range. -/
theorem sum_sizes {l : List Chunk} (hnodup : l.Nodup) (hl : ∀ c, c ∈ l ↔ c ∈ D.used ∪ D.free) :
    (l.map Chunk.size).sum = hi - lo := by
  have hcard (c : Chunk) : c.size = (Finset.Ico c.start c.stop).card := by
    rw [Nat.card_Ico,Chunk.stop,Nat.add_sub_cancel_left]
  have hapart : Set.PairwiseDisjoint (l.toFinset : Set Chunk) fun c => Finset.Ico c.start c.stop := by
    intro c hc d hd hne
    rw [Finset.mem_coe,List.mem_toFinset,hl] at hc hd
    rw [Function.onFun,Finset.disjoint_left]
    intro x hxc hxd
    rw [Finset.mem_Ico] at hxc hxd
    rcases D.apart c hc d hd hne with h | h <;> omega
  have hall : l.toFinset.biUnion (fun c => Finset.Ico c.start c.stop) = Finset.Ico lo hi := by
    ext x
    simp only [Finset.mem_biUnion,List.mem_toFinset,Finset.mem_Ico,hl]
    constructor
    · rintro ⟨c,hc,hstart,hstop⟩
      have hinside := D.inside c hc
      omega
    · rintro ⟨hlo,hhi⟩
      exact D.covers x hlo hhi
  calc (l.map Chunk.size).sum = ∑ c ∈ l.toFinset, c.size := (List.sum_toFinset _ hnodup).symm
    _ = ∑ c ∈ l.toFinset, (Finset.Ico c.start c.stop).card := Finset.sum_congr rfl fun c _ => hcard c
    _ = (Finset.Ico lo hi).card := by rw [← hall,Finset.card_biUnion hapart]
    _ = hi - lo := Nat.card_Ico lo hi

end Division
end Tkeycoin
