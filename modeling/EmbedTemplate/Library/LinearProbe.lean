import Mathlib.Data.List.Perm.Subperm
import Mathlib.Data.List.Nodup
import Mathlib.Data.List.Induction
import Mathlib.Data.Nat.Find
import Mathlib.Logic.Function.Basic

/-! # Linear probing

An open-addressed table is a ring of slots. A key is put into the first free slot at or behind
its home, and the search for it walks the same way. `Chained` is the invariant of such a table;
from it follow where a search ends, and which slots are taken in terms of the homes alone.
-/
namespace EmbedTemplate.LinearProbe

section Ring

/-- The slot `i` places behind `h` in a ring of `n`. -/
def slotAt (n h i : ℕ) : ℕ := (h + i) % n

/-- How many places `b` is behind `a`. -/
def gap (n a b : ℕ) : ℕ := (b + n - a) % n

variable {n : ℕ}

theorem slotAt_lt (hn : 0 < n) (h i : ℕ) : slotAt n h i < n := Nat.mod_lt _ hn

theorem slotAt_zero {h : ℕ} (hh : h < n) : slotAt n h 0 = h := Nat.mod_eq_of_lt hh

theorem slotAt_succ (h i : ℕ) : slotAt n h (i + 1) = (slotAt n h i + 1) % n := by
  unfold slotAt
  rw [Nat.mod_add_mod,Nat.add_assoc]

theorem slotAt_eq {h i : ℕ} (hh : h < n) (hi : i < n) : slotAt n h i = if h + i < n then h + i else h + i - n := by
  unfold slotAt
  split
  · exact Nat.mod_eq_of_lt ‹_›
  · rw [Nat.mod_eq_sub_mod (by omega),Nat.mod_eq_of_lt (by omega)]

theorem gap_eq {a b : ℕ} (ha : a < n) (hb : b < n) : gap n a b = if a ≤ b then b - a else b + n - a := by
  unfold gap
  split
  · rw [Nat.mod_eq_sub_mod (by omega),Nat.mod_eq_of_lt (by omega)]
    omega
  · exact Nat.mod_eq_of_lt (by omega)

theorem gap_lt (hn : 0 < n) (a b : ℕ) : gap n a b < n := Nat.mod_lt _ hn

theorem slotAt_gap {a b : ℕ} (ha : a < n) (hb : b < n) : slotAt n a (gap n a b) = b := by
  rw [slotAt_eq ha (gap_lt (by omega) a b),gap_eq ha hb]
  split <;> split <;> omega

theorem gap_slotAt {a d : ℕ} (ha : a < n) (hd : d < n) : gap n a (slotAt n a d) = d := by
  rw [gap_eq ha (slotAt_lt (by omega) a d),slotAt_eq ha hd]
  split <;> split <;> omega

/-- A slot before the one at distance `d` splits the distance. -/
theorem gap_add {a d s : ℕ} (ha : a < n) (hs : s < n) (hd : d ≤ gap n a s) : gap n (slotAt n a d) s = gap n a s - d := by
  have hlt := gap_lt (by omega : 0 < n) a s
  rw [gap_eq (slotAt_lt (by omega) a d) hs,slotAt_eq ha (by omega)]
  rw [gap_eq ha hs] at hd hlt ⊢
  split at hd <;> split <;> split <;> omega

theorem gap_gap {i s : ℕ} (hi : i < n) (hs : s < n) : gap n (gap n i s) s = i := by
  rw [gap_eq (gap_lt (by omega) i s) hs,gap_eq hi hs]
  split <;> split <;> omega

theorem gap_self {s : ℕ} (hs : s < n) : gap n s s = 0 := by
  rw [gap_eq hs hs,if_pos le_rfl,Nat.sub_self]

end Ring

section Loop
variable {ρ : Type*} (n : ℕ) (stop : ℕ → Option ρ)

/-- Walks the ring from a slot until `stop` has a result, for as many slots as there is fuel. -/
def probe : ℕ → ℕ → Option ρ
  | 0, _ => none
  | fuel + 1, s => (stop s).or (probe fuel ((s + 1) % n))

theorem probe_eq_some {fuel s : ℕ} {r : ρ} (hs : s < n) :
    probe n stop fuel s = some r ↔
      ∃ i < fuel, stop (slotAt n s i) = some r ∧ ∀ j < i, stop (slotAt n s j) = none := by
  induction fuel generalizing s with
  | zero => simp [probe]
  | succ fuel ih =>
    have hnext : ∀ i, slotAt n ((s + 1) % n) i = slotAt n s (i + 1) := by
      intro i
      unfold slotAt
      rw [Nat.mod_add_mod,Nat.add_right_comm,Nat.add_assoc]
    rw [probe,Option.or_eq_some_iff,ih (Nat.mod_lt _ (by omega))]
    simp only [hnext]
    constructor
    · rintro (h | ⟨hnone,i,hi,hstop,hbefore⟩)
      · exact ⟨0,Nat.succ_pos fuel,by rwa [slotAt_zero hs],fun j hj => absurd hj (Nat.not_lt_zero j)⟩
      · refine ⟨i + 1,Nat.succ_lt_succ hi,hstop,fun j hj => ?_⟩
        cases j with
        | zero => rwa [slotAt_zero hs]
        | succ j => exact hbefore j (Nat.lt_of_succ_lt_succ hj)
    · rintro ⟨i,hi,hstop,hbefore⟩
      cases i with
      | zero => exact .inl (by rwa [slotAt_zero hs] at hstop)
      | succ i =>
        have hnone := hbefore 0 (Nat.succ_pos i)
        rw [slotAt_zero hs] at hnone
        exact .inr ⟨hnone,i,Nat.lt_of_succ_lt_succ hi,hstop,fun j hj => hbefore (j + 1) (Nat.succ_lt_succ hj)⟩

variable {n stop} in
theorem stop_of_probe {fuel s : ℕ} {r : ρ} (h : probe n stop fuel s = some r) : ∃ t, stop t = some r := by
  induction fuel generalizing s with
  | zero => cases h
  | succ fuel ih =>
    rw [probe,Option.or_eq_some_iff] at h
    rcases h with h | ⟨-,h⟩
    · exact ⟨s,h⟩
    · exact ih h

end Loop

section Table
variable {κ : Type*} {n : ℕ} {home : κ → ℕ}

/-- A table that holds some keys, each in one slot and with no free slot between its home and
this slot. -/
structure Chained (n : ℕ) (home : κ → ℕ) (slots : ℕ → Option κ) (keys : List κ) : Prop where
  nodup : keys.Nodup
  homes : ∀ k ∈ keys, home k < n
  held : ∀ k ∈ keys, ∃ d < n, slots (slotAt n (home k) d) = some k ∧ ∀ j < d, slots (slotAt n (home k) j) ≠ none
  mem : ∀ s < n, ∀ k, slots s = some k → k ∈ keys
  once : ∀ s < n, ∀ t < n, ∀ k, slots s = some k → slots t = some k → s = t

theorem chained_empty : Chained n home (fun _ => none) [] := by
  constructor <;> simp

variable {slots : ℕ → Option κ} {keys : List κ}

/-- Some taken slots, all different, have as many different keys. -/
theorem Chained.le_countP (h : Chained n home slots keys) {e : ℕ} (place : ℕ → ℕ) (p : κ → Bool)
    (hplace : ∀ i < e, place i < n) (hinj : ∀ i < e, ∀ j < e, place i = place j → i = j)
    (hkey : ∀ i < e, ∃ k, slots (place i) = some k ∧ p k = true) : e ≤ keys.countP p := by
  choose key hkey using hkey
  have hnodup : ((List.range e).pmap key fun i hi => List.mem_range.mp hi).Nodup := by
    refine List.nodup_range.pmap fun i hi j hj hij => hinj i hi j hj ?_
    exact h.once _ (hplace i hi) _ (hplace j hj) (key i hi) (hkey i hi).1 (hij ▸ (hkey j hj).1)
  have hsub : ((List.range e).pmap key fun i hi => List.mem_range.mp hi) ⊆ keys.filter p := by
    intro k hk
    obtain ⟨i,hi,rfl⟩ := List.mem_pmap.mp hk
    have hlt := List.mem_range.mp hi
    exact List.mem_filter.mpr ⟨h.mem _ (hplace i hlt) _ (hkey i hlt).1,(hkey i hlt).2⟩
  have hlen := (List.subperm_of_subset hnodup hsub).length_le
  rwa [List.length_pmap,List.length_range,← List.countP_eq_length_filter] at hlen

/-- There are no more taken slots than keys. -/
theorem Chained.exists_free (h : Chained n home slots keys) (hroom : keys.length < n) : ∃ s < n, slots s = none := by
  by_contra hfull
  have hcount := h.le_countP id (fun _ => true) (fun _ hs => hs) (fun _ _ _ _ hst => hst) fun s hs => by
    obtain ⟨k,hk⟩ := Option.ne_none_iff_exists'.mp fun hnone => hfull ⟨s,hs,hnone⟩
    exact ⟨k,hk,rfl⟩
  rw [List.countP_true] at hcount
  omega

/-- From every slot the walk reaches a free one. -/
theorem Chained.first_free (h : Chained n home slots keys) (hroom : keys.length < n) {a : ℕ} (ha : a < n) :
    ∃ d < n, slots (slotAt n a d) = none ∧ ∀ j < d, slots (slotAt n a j) ≠ none := by
  classical
  obtain ⟨s,hs,hfree⟩ := h.exists_free hroom
  have hex : ∃ d, slots (slotAt n a d) = none := ⟨gap n a s,by rw [slotAt_gap ha hs]; exact hfree⟩
  refine ⟨Nat.find hex,?_,Nat.find_spec hex,fun j hj => Nat.find_min hex hj⟩
  refine lt_of_le_of_lt (Nat.find_min' hex ?_) (gap_lt (by omega) a s)
  rw [slotAt_gap ha hs]
  exact hfree

/-- Where a slot has a key, the way to it from the home of the key has no free slot. -/
theorem Chained.reach (h : Chained n home slots keys) {s : ℕ} (hs : s < n) {k : κ} (hk : slots s = some k) :
    ∀ j ≤ gap n (home k) s, slots (slotAt n (home k) j) ≠ none := by
  have hmem := h.mem s hs k hk
  have hhome := h.homes k hmem
  obtain ⟨d,hd,hat,hbefore⟩ := h.held k hmem
  have hpos := h.once _ (slotAt_lt (by omega) _ d) s hs k hat hk
  rw [← hpos,gap_slotAt hhome hd]
  intro j hj
  rcases Nat.lt_or_eq_of_le hj with hlt | rfl
  · exact hbefore j hlt
  · simp [hat]

/-- From where one starts, a key is at one distance only. -/
theorem Chained.distance_unique (h : Chained n home slots keys) {a i j : ℕ} (ha : a < n) (hi : i < n) (hj : j < n)
    {k : κ} (hki : slots (slotAt n a i) = some k) (hkj : slots (slotAt n a j) = some k) : i = j := by
  have hsame := h.once _ (slotAt_lt (by omega) a i) _ (slotAt_lt (by omega) a j) k hki hkj
  rw [← gap_slotAt ha hi,hsame,gap_slotAt ha hj]

/-- A key that goes into the first free slot from its home. -/
theorem Chained.insert (h : Chained n home slots keys) {k : κ} (hnew : k ∉ keys) (hhome : home k < n) {d : ℕ}
    (hd : d < n) (hfree : slots (slotAt n (home k) d) = none)
    (hbefore : ∀ j < d, slots (slotAt n (home k) j) ≠ none) :
    Chained n home (Function.update slots (slotAt n (home k) d) (some k)) (keys ++ [k]) := by
  classical
  have hkeep : ∀ s, slots s ≠ none → Function.update slots (slotAt n (home k) d) (some k) s = slots s := by
    intro s hs
    rw [Function.update_of_ne]
    rintro rfl
    exact hs hfree
  refine ⟨?_,?_,?_,?_,?_⟩
  · rw [List.nodup_append]
    exact ⟨h.nodup,List.nodup_singleton k,by simpa using fun a ha => ne_of_mem_of_not_mem ha hnew⟩
  · intro k' hk'
    rcases List.mem_append.mp hk' with hk' | hk'
    · exact h.homes k' hk'
    · rw [List.mem_singleton.mp hk']
      exact hhome
  · intro k' hk'
    rcases List.mem_append.mp hk' with hk' | hk'
    · obtain ⟨d',hd',hat,hchain⟩ := h.held k' hk'
      refine ⟨d',hd',by rw [hkeep _ (by simp [hat]),hat],fun j hj => ?_⟩
      rw [hkeep _ (hchain j hj)]
      exact hchain j hj
    · rw [List.mem_singleton.mp hk']
      refine ⟨d,hd,Function.update_self ..,fun j hj => ?_⟩
      rw [hkeep _ (hbefore j hj)]
      exact hbefore j hj
  · intro s hs k' hk'
    rw [Function.update_apply] at hk'
    split at hk'
    · simp [Option.some_inj.mp hk']
    · exact List.mem_append_left _ (h.mem s hs k' hk')
  · intro s hs t ht k' hks hkt
    rw [Function.update_apply] at hks hkt
    split at hks <;> split at hkt
    · exact ‹s = _›.trans ‹t = _›.symm
    · rw [← Option.some_inj.mp hks] at hkt
      exact absurd (h.mem t ht k hkt) hnew
    · rw [← Option.some_inj.mp hkt] at hks
      exact absurd (h.mem s hs k hks) hnew
    · exact h.once s hs t ht k' hks hkt

/-- The stretch of taken slots that ends at a slot begins behind a free one. -/
theorem Chained.stretch (h : Chained n home slots keys) (hroom : keys.length < n) {s : ℕ} (hs : s < n)
    (htaken : slots s ≠ none) :
    ∃ e, 0 < e ∧ e < n ∧ slots (gap n e s) = none ∧ ∀ i < e, slots (gap n i s) ≠ none := by
  classical
  obtain ⟨f,hf,hfree⟩ := h.exists_free hroom
  have hback : slots (gap n (gap n f s) s) = none := by rwa [gap_gap hf hs]
  have hex : ∃ e, slots (gap n e s) = none := ⟨gap n f s,hback⟩
  refine ⟨Nat.find hex,?_,?_,Nat.find_spec hex,fun i hi => Nat.find_min hex hi⟩
  · rw [Nat.find_pos]
    have hself := gap_gap hs hs
    rw [gap_self hs] at hself
    rwa [hself]
  · exact lt_of_le_of_lt (Nat.find_min' hex hback) (gap_lt (by omega) f s)

/-- The keys of a stretch behind a free slot have their homes in the stretch. -/
theorem Chained.home_near (h : Chained n home slots keys) {s e i : ℕ} (hs : s < n) (he : e < n) (hi : i < e)
    (hfree : slots (gap n e s) = none) {k : κ} (hk : slots (gap n i s) = some k) : gap n (home k) s < e := by
  have hslot := gap_lt (by omega : 0 < n) i s
  have hbehind := gap_lt (by omega : 0 < n) e s
  have hhome := h.homes _ (h.mem _ hslot _ hk)
  -- A home further away would have the free slot on the way to the key.
  by_contra hfar
  have hle : gap n (home k) (gap n e s) ≤ gap n (home k) (gap n i s) := by
    have he' := gap_gap he hs
    have hi' := gap_gap (lt_trans hi he) hs
    rw [gap_eq hbehind hs] at he'
    rw [gap_eq hslot hs] at hi'
    rw [gap_eq hhome hs] at hfar
    rw [gap_eq hhome hbehind,gap_eq hhome hslot]
    split at he' <;> split at hi' <;> split at hfar <;> split <;> split <;> omega
  have hreach := h.reach hslot hk _ hle
  rw [slotAt_gap hhome hbehind] at hreach
  exact hreach hfree

/-- A taken slot ends a stretch that has more homes than other slots. -/
theorem Chained.crowded (h : Chained n home slots keys) (hroom : keys.length < n) {s : ℕ} (hs : s < n)
    (htaken : slots s ≠ none) : ∃ j < n, j < keys.countP fun k => gap n (home k) s ≤ j := by
  obtain ⟨e,hpos,he,hfree,hrun⟩ := h.stretch hroom hs htaken
  refine ⟨e - 1,by omega,?_⟩
  have hcount := h.le_countP (gap n · s) (fun k => gap n (home k) s ≤ e - 1) (fun i _ => gap_lt (by omega) i s)
    (fun i hi j hj hij => by rw [← gap_gap (lt_trans hi he) hs,hij,gap_gap (lt_trans hj he) hs]) fun i hi => by
      obtain ⟨k,hk⟩ := Option.ne_none_iff_exists'.mp (hrun i hi)
      have hnear := h.home_near hs he hi hfree hk
      exact ⟨k,hk,decide_eq_true (by omega)⟩
  omega

/-- No more than `j` keys have their home in the `j + 1` slots that end at a free one. -/
theorem Chained.countP_le (h : Chained n home slots keys) {s : ℕ} (hs : s < n) (hfree : slots s = none) (j : ℕ) :
    (keys.countP fun k => gap n (home k) s ≤ j) ≤ j := by
  have hpos : ∀ k, ∃ p, k ∈ keys → p < n ∧ slots p = some k := by
    intro k
    by_cases hk : k ∈ keys
    · obtain ⟨d,-,hat,-⟩ := h.held k hk
      exact ⟨_,fun _ => ⟨slotAt_lt (by omega) _ d,hat⟩⟩
    · exact ⟨0,fun hmem => absurd hmem hk⟩
  choose pos hpos using hpos
  have hnear : ∀ k ∈ keys, gap n (pos k) s ≠ 0 ∧ gap n (pos k) s ≤ gap n (home k) s := by
    intro k hk
    obtain ⟨hlt,hat⟩ := hpos k hk
    have hhome := h.homes k hk
    constructor
    · intro hzero
      have hself := slotAt_gap hlt hs
      rw [hzero,slotAt_zero hlt] at hself
      rw [hself,hfree] at hat
      exact absurd hat (by simp)
    · have hle : gap n (home k) (pos k) ≤ gap n (home k) s := by
        by_contra hfar
        have hreach := h.reach hlt hat (gap n (home k) s) (by omega)
        rw [slotAt_gap hhome hs] at hreach
        exact hreach hfree
      have hadd := gap_add hhome hs hle
      rw [slotAt_gap hhome hlt] at hadd
      omega
  have hnodup : ((keys.filter fun k => gap n (home k) s ≤ j).map fun k => gap n (pos k) s - 1).Nodup := by
    refine List.Nodup.map_on (fun a ha b hb hab => ?_) (h.nodup.filter _)
    have ha := (List.mem_filter.mp ha).1
    have hb := (List.mem_filter.mp hb).1
    have heq : gap n (pos a) s = gap n (pos b) s := by
      have h1 := (hnear a ha).1
      have h2 := (hnear b hb).1
      omega
    have hsame : pos a = pos b := by
      rw [← gap_gap (hpos a ha).1 hs,heq,gap_gap (hpos b hb).1 hs]
    have hat := (hpos a ha).2
    rw [hsame,(hpos b hb).2] at hat
    exact (Option.some_inj.mp hat).symm
  have hsub : ((keys.filter fun k => gap n (home k) s ≤ j).map fun k => gap n (pos k) s - 1) ⊆ List.range j := by
    intro i hi
    obtain ⟨k,hk,rfl⟩ := List.mem_map.mp hi
    obtain ⟨hmem,hle⟩ := List.mem_filter.mp hk
    have hle := of_decide_eq_true hle
    obtain ⟨hne,hnear⟩ := hnear k hmem
    rw [List.mem_range]
    omega
  have hlen := (List.subperm_of_subset hnodup hsub).length_le
  rwa [List.length_map,List.length_range,← List.countP_eq_length_filter] at hlen

/-- A slot is taken when more keys have their home in some stretch that ends there than the
stretch has other slots. -/
theorem Chained.taken_iff (h : Chained n home slots keys) (hroom : keys.length < n) {s : ℕ} (hs : s < n) :
    slots s ≠ none ↔ ∃ j < n, j < keys.countP fun k => gap n (home k) s ≤ j := by
  refine ⟨h.crowded hroom hs,?_⟩
  rintro ⟨j,-,hcount⟩ hfree
  exact Nat.not_lt_of_le (h.countP_le hs hfree j) hcount

end Table

section Fill
variable {κ : Type*} (n : ℕ) (home : κ → ℕ)

/-- Puts a key into the first free slot from its home. -/
def put (slots : ℕ → Option κ) (k : κ) : ℕ → Option κ :=
  match probe n (fun s => if (slots s).isNone then some s else none) n (home k) with
  | some s => Function.update slots s (some k)
  | none => slots

/-- The table after some keys, in their order. -/
def table (keys : List κ) : ℕ → Option κ := keys.foldl (put n home) fun _ => none

variable {n home} {slots : ℕ → Option κ} {keys : List κ} {k : κ}

theorem put_eq {d : ℕ} (hhome : home k < n) (hd : d < n) (hfree : slots (slotAt n (home k) d) = none)
    (hbefore : ∀ j < d, slots (slotAt n (home k) j) ≠ none) :
    put n home slots k = Function.update slots (slotAt n (home k) d) (some k) := by
  have hprobe : probe n (fun s => if (slots s).isNone then some s else none) n (home k) =
      some (slotAt n (home k) d) := by
    rw [probe_eq_some n _ hhome]
    refine ⟨d,hd,by simp [hfree],fun j hj => ?_⟩
    simp [hbefore j hj]
  unfold put
  rw [hprobe]

/-- A key stays in its slot. -/
theorem put_of_some {s : ℕ} {k' : κ} (hs : slots s = some k') : put n home slots k s = some k' := by
  unfold put
  cases hprobe : probe n (fun s => if (slots s).isNone then some s else none) n (home k) with
  | none => exact hs
  | some t =>
    obtain ⟨u,hu⟩ := stop_of_probe hprobe
    simp only [Option.ite_none_right_eq_some,Option.some_inj] at hu
    obtain ⟨hfree,rfl⟩ := hu
    dsimp only
    rw [Function.update_of_ne,hs]
    rintro rfl
    simp [hs] at hfree

theorem foldl_put_of_some (later : List κ) {s : ℕ} {k' : κ} (hs : slots s = some k') :
    later.foldl (put n home) slots s = some k' := by
  induction later generalizing slots with
  | nil => exact hs
  | cons k later ih => exact ih (put_of_some hs)

theorem table_snoc (keys : List κ) (k : κ) : table n home (keys ++ [k]) = put n home (table n home keys) k :=
  List.foldl_append ..

theorem chained_table (hnodup : keys.Nodup) (hhomes : ∀ k ∈ keys, home k < n) (hroom : keys.length ≤ n) :
    Chained n home (table n home keys) keys := by
  induction keys using List.reverseRecOn with
  | nil => exact chained_empty
  | append_singleton keys k ih =>
    rw [List.length_append,List.length_singleton] at hroom
    have hnew : k ∉ keys := fun hk => (List.nodup_append.mp hnodup).2.2 k hk k (List.mem_singleton_self k) rfl
    have hhome := hhomes k (List.mem_append_right _ (List.mem_singleton_self k))
    have hc := ih (List.nodup_append.mp hnodup).1 (fun a ha => hhomes a (List.mem_append_left _ ha)) (by omega)
    obtain ⟨d,hd,hfree,hbefore⟩ := hc.first_free (by omega) hhome
    rw [table_snoc,put_eq hhome hd hfree hbefore]
    exact hc.insert hnew hhome hd hfree hbefore

/-- Of two keys with one home the later one is further away from it. -/
theorem table_order {before between later : List κ} {k k' : κ}
    (hnodup : (before ++ k :: between ++ k' :: later).Nodup)
    (hhomes : ∀ a ∈ before ++ k :: between ++ k' :: later, home a < n)
    (hroom : (before ++ k :: between ++ k' :: later).length ≤ n) (hsame : home k' = home k) {d d' : ℕ} (hd : d < n)
    (hd' : d' < n) (hk : table n home (before ++ k :: between ++ k' :: later) (slotAt n (home k) d) = some k)
    (hk' : table n home (before ++ k :: between ++ k' :: later) (slotAt n (home k') d') = some k') : d < d' := by
  have hfull := chained_table hnodup hhomes hroom
  have hlen : (before ++ k :: between).length < n := by
    rw [List.length_append,List.length_cons] at hroom
    omega
  have hc : Chained n home (table n home (before ++ k :: between)) (before ++ k :: between) :=
    chained_table (List.nodup_append.mp hnodup).1 (fun a ha => hhomes a (List.mem_append_left _ ha)) (Nat.le_of_lt hlen)
  have hhome : home k' < n := hhomes k' (List.mem_append_right _ (List.mem_cons_self ..))
  have hkeep : ∀ {s : ℕ} {a : κ}, table n home (before ++ k :: between) s = some a →
      table n home (before ++ k :: between ++ k' :: later) s = some a := by
    intro s a hs
    conv_lhs => unfold table
    rw [List.foldl_append]
    exact foldl_put_of_some (k' :: later) hs
  obtain ⟨e,he,hfree,hbefore⟩ := hc.first_free hlen hhome
  have hplace : table n home (before ++ k :: between ++ k' :: later) (slotAt n (home k') e) = some k' := by
    rw [List.append_cons _ k']
    unfold table
    rw [List.foldl_append]
    apply foldl_put_of_some
    rw [← table,table_snoc,put_eq hhome he hfree hbefore,Function.update_self]
  obtain rfl := hfull.distance_unique hhome hd' he hk' hplace
  obtain ⟨c,hcn,hheld,hpassed⟩ := hc.held k (List.mem_append_right _ (List.mem_cons_self ..))
  obtain rfl := hfull.distance_unique (hsame ▸ hhome) hd hcn hk (hkeep hheld)
  rw [hsame] at hfree
  rcases Nat.lt_trichotomy d d' with hlt | rfl | hgt
  · exact hlt
  · rw [hheld] at hfree
    cases hfree
  · exact absurd hfree (hpassed d' hgt)

/-- A key is within some number of slots from its home exactly when one of these slots was free
for it, in terms of the homes of the keys before it. -/
theorem near_iff {before later : List κ} {k : κ} (hnodup : (before ++ k :: later).Nodup)
    (hhomes : ∀ a ∈ before ++ k :: later, home a < n) (hroom : (before ++ k :: later).length ≤ n) (limit : ℕ) :
    (∃ d < limit, table n home (before ++ k :: later) (slotAt n (home k) d) = some k) ↔
      ∃ i < limit, ∀ j < n, (before.countP fun a => gap n (home a) (slotAt n (home k) i) ≤ j) ≤ j := by
  have hfull := chained_table hnodup hhomes hroom
  have hlen : before.length < n := by
    rw [List.length_append,List.length_cons] at hroom
    omega
  have hc : Chained n home (table n home before) before :=
    chained_table (List.nodup_append.mp hnodup).1 (fun a ha => hhomes a (List.mem_append_left _ ha)) (Nat.le_of_lt hlen)
  have hhome : home k < n := hhomes k (List.mem_append_right _ (List.mem_cons_self ..))
  obtain ⟨d,hd,hfree,hbefore⟩ := hc.first_free hlen hhome
  have hplace : table n home (before ++ k :: later) (slotAt n (home k) d) = some k := by
    rw [List.append_cons]
    unfold table
    rw [List.foldl_append]
    apply foldl_put_of_some
    rw [← table,table_snoc,put_eq hhome hd hfree hbefore,Function.update_self]
  have hslot : ∀ i, slotAt n (home k) i < n := slotAt_lt (by omega) (home k)
  have hfree_iff : ∀ i, table n home before (slotAt n (home k) i) = none ↔
      ∀ j < n, (before.countP fun a => gap n (home a) (slotAt n (home k) i) ≤ j) ≤ j := by
    intro i
    have htaken := not_congr (hc.taken_iff hlen (hslot i))
    rw [ne_eq,not_not] at htaken
    rw [htaken]
    simp only [not_exists,not_and,not_lt]
  constructor
  · rintro ⟨d',hd',hat⟩
    have hsame := hfull.once _ (hslot d') _ (hslot d) k hat hplace
    refine ⟨d',hd',(hfree_iff d').mp ?_⟩
    rw [hsame]
    exact hfree
  · rintro ⟨i,hi,hcount⟩
    refine ⟨d,?_,hplace⟩
    by_contra hfar
    exact hbefore i (by omega) ((hfree_iff i).mpr hcount)

end Fill

end EmbedTemplate.LinearProbe
