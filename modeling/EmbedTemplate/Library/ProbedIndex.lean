import EmbedTemplate.Library.LinearProbe

/-! # An index over a list

The keys of a list, each with its place, in a probed table. A key may occur more than once: a search that walks from
the home of the key meets the occurrence that was added first, and it meets it within as many slots as there were keys
before.
-/
namespace EmbedTemplate.ProbedIndex
open LinearProbe
variable {κ : Type*} {n : ℕ} {home : κ → ℕ} {keys before between after later : List κ} {key : κ}

section Slots

/-- The probed table of the keys with their places. -/
def slots (n : ℕ) (home : κ → ℕ) (keys : List κ) : ℕ → Option (κ × ℕ) := table n (fun k => home k.1) keys.zipIdx

theorem nodup_zipIdx (keys : List κ) : keys.zipIdx.Nodup := by
  apply List.Nodup.of_map Prod.snd
  rw [List.zipIdx_map_snd]
  exact List.nodup_range'

theorem chained_slots (hhome : ∀ k, home k < n) (hroom : keys.length ≤ n) :
    Chained n (fun k => home k.1) (slots n home keys) keys.zipIdx :=
  chained_table (nodup_zipIdx keys) (fun k _ => hhome k.1) (by rwa [List.length_zipIdx])

/-- One more key goes into the first free slot from its home. -/
theorem slots_snoc (hhome : ∀ k, home k < n) (hroom : keys.length < n) (key : κ) :
    ∃ d < n, slots n home keys (slotAt n (home key) d) = none ∧
      (∀ j < d, slots n home keys (slotAt n (home key) j) ≠ none) ∧
      slots n home (keys ++ [key]) =
        Function.update (slots n home keys) (slotAt n (home key) d) (some (key,keys.length)) := by
  obtain ⟨d,hd,hfree,hbefore⟩ := (chained_slots hhome (Nat.le_of_lt hroom)).first_free (by rwa [List.length_zipIdx]) (hhome key)
  refine ⟨d,hd,hfree,hbefore,?_⟩
  have hput : slots n home (keys ++ [key]) = put n (fun k => home k.1) (slots n home keys) (key,keys.length) := by
    unfold slots
    rw [List.zipIdx_append,← table_snoc]
    simp
  rw [hput]
  exact @put_eq _ n (fun k => home k.1) _ (key,keys.length) d (hhome key) hd hfree hbefore

/-- A key stays where it is. -/
theorem slots_append {s : ℕ} {k : κ × ℕ} (hs : slots n home keys s = some k) :
    slots n home (keys ++ later) s = some k := by
  unfold slots table at hs ⊢
  rw [List.zipIdx_append,List.foldl_append]
  exact foldl_put_of_some _ hs

/-- A key is at most as many slots behind its home as there were keys before it. -/
theorem exists_near (hhome : ∀ k, home k < n) (hroom : before.length < n) :
    ∃ d ≤ before.length, slots n home (before ++ key :: after) (slotAt n (home key) d) = some (key,before.length) := by
  have hlen : (before ++ [key]).length ≤ n := by
    rw [List.length_append,List.length_singleton]
    exact hroom
  have hc := chained_slots hhome hlen
  obtain ⟨d,hd,hat,htaken⟩ := hc.held (key,before.length) (List.mk_mem_zipIdx_iff_getElem?.mpr (by simp))
  refine ⟨d,?_,?_⟩
  · have hcount := hc.le_countP (e := d + 1) (fun j => slotAt n (home key) j) (fun _ => true)
      (fun j _ => slotAt_lt (by omega) _ j)
      (fun j hj k hk hjk => by
        rw [← gap_slotAt (hhome key) (Nat.lt_of_lt_of_le hj hd),hjk,gap_slotAt (hhome key) (Nat.lt_of_lt_of_le hk hd)])
      (fun j hj => by
        rcases Nat.lt_succ_iff_lt_or_eq.mp hj with hlt | rfl
        · obtain ⟨k,hk⟩ := Option.ne_none_iff_exists'.mp (htaken j hlt)
          exact ⟨k,hk,rfl⟩
        · exact ⟨_,hat,rfl⟩)
    rw [List.countP_true,List.length_zipIdx,List.length_append,List.length_singleton] at hcount
    omega
  · rw [List.append_cons]
    exact slots_append hat

/-- A later occurrence of a key is further from the home of the key. -/
theorem slots_order (hhome : ∀ k, home k < n) (hroom : (before ++ key :: (between ++ key :: later)).length ≤ n) {d d' : ℕ}
    (hd : d < n) (hd' : d' < n)
    (hk : slots n home (before ++ key :: (between ++ key :: later)) (slotAt n (home key) d) = some (key,before.length))
    (hk' : slots n home (before ++ key :: (between ++ key :: later)) (slotAt n (home key) d') =
      some (key,before.length + 1 + between.length)) : d < d' := by
  have hsplit : (before ++ key :: (between ++ key :: later)).zipIdx =
      before.zipIdx ++ (key,before.length) :: between.zipIdx (before.length + 1) ++
        (key,before.length + 1 + between.length) :: later.zipIdx (before.length + 1 + between.length + 1) := by
    rw [List.zipIdx_append,List.zipIdx_cons,List.zipIdx_append,List.zipIdx_cons,Nat.zero_add]
    simp
  have hnodup := nodup_zipIdx (before ++ key :: (between ++ key :: later))
  rw [← List.length_zipIdx] at hroom
  unfold slots at hk hk'
  rw [hsplit] at hnodup hroom hk hk'
  exact @table_order _ n (fun k => home k.1) _ _ _ _ _ hnodup (fun k _ => hhome k.1) hroom rfl d d' hd hd' hk hk'

end Slots

section Searches
variable [DecidableEq κ] {ρ : Type*} {stop : ℕ → Option ρ} {free : ρ} {found : ℕ → ρ} {limit : ℕ}

/-- A round of a search for a key: it ends at a free slot and at a slot that has the key. -/
structure Searches (n : ℕ) (home : κ → ℕ) (keys : List κ) (key : κ) (stop : ℕ → Option ρ) (free : ρ) (found : ℕ → ρ) :
    Prop where
  free : ∀ s < n, slots n home keys s = none → stop s = some free
  taken : ∀ s < n, ∀ k, slots n home keys s = some k → keys[k.2]? = some k.1 →
    stop s = if key = k.1 then some (found k.2) else none

theorem Searches.absent (h : Searches n home keys key stop free found) (hhome : ∀ k, home k < n)
    (hroom : keys.length ≤ n) (habsent : key ∉ keys) (limit : ℕ) : (probe n stop limit (home key)).getD free = free := by
  have hc := chained_slots hhome hroom
  have hslot : ∀ j, slotAt n (home key) j < n := slotAt_lt (Nat.zero_lt_of_lt (hhome key)) _
  cases hprobe : probe n stop limit (home key) with
  | none => rfl
  | some r =>
    obtain ⟨i,-,hstop,-⟩ := (probe_eq_some _ _ (hhome key)).mp hprobe
    cases hk : slots n home keys (slotAt n (home key) i) with
    | none =>
      rw [h.free _ (hslot i) hk] at hstop
      exact (Option.some_inj.mp hstop).symm
    | some k =>
      have hget := List.mk_mem_zipIdx_iff_getElem?.mp (hc.mem _ (hslot i) k hk)
      rw [h.taken _ (hslot i) k hk hget,if_neg] at hstop
      · cases hstop
      · rintro rfl
        exact habsent (List.mem_of_getElem? hget)

/-- What it finds is in one of the slots that it visits. -/
theorem Searches.reached {i : ℕ} (h : Searches n home keys key stop free found) (hhome : ∀ k, home k < n)
    (hroom : keys.length ≤ n) (hfree : free ≠ found i) (hfound : Function.Injective found)
    (hfind : (probe n stop limit (home key)).getD free = found i) :
    ∃ d < limit, slots n home keys (slotAt n (home key) d) = some (key,i) := by
  have hc := chained_slots hhome hroom
  have hslot : ∀ j, slotAt n (home key) j < n := slotAt_lt (Nat.zero_lt_of_lt (hhome key)) _
  cases hprobe : probe n stop limit (home key) with
  | none =>
    rw [hprobe] at hfind
    exact absurd hfind hfree
  | some r =>
    obtain ⟨d,hd,hstop,-⟩ := (probe_eq_some _ _ (hhome key)).mp hprobe
    rw [hprobe,Option.getD_some] at hfind
    subst hfind
    refine ⟨d,hd,?_⟩
    cases hk : slots n home keys (slotAt n (home key) d) with
    | none =>
      rw [h.free _ (hslot d) hk] at hstop
      exact absurd (Option.some_inj.mp hstop) hfree
    | some k =>
      have hget := List.mk_mem_zipIdx_iff_getElem?.mp (hc.mem _ (hslot d) k hk)
      rw [h.taken _ (hslot d) k hk hget] at hstop
      split at hstop
      case isTrue hkey => rw [hkey,← hfound (Option.some_inj.mp hstop)]
      case isFalse => cases hstop

/-- The search meets the occurrence of a key that was added first, when it goes far enough. -/
theorem Searches.first (h : Searches n home (before ++ key :: after) key stop free found) (hhome : ∀ k, home k < n)
    (hroom : (before ++ key :: after).length ≤ n) (hnew : key ∉ before)
    (hnear : ∃ d < limit, slots n home (before ++ key :: after) (slotAt n (home key) d) = some (key,before.length)) :
    probe n stop limit (home key) = some (found before.length) := by
  have hc := chained_slots hhome hroom
  have hslot : ∀ j, slotAt n (home key) j < n := slotAt_lt (Nat.zero_lt_of_lt (hhome key)) _
  have hhere : (before ++ key :: after)[before.length]? = some key := by simp
  obtain ⟨near,hlimit,hat⟩ := hnear
  obtain ⟨d,hd,hheld,hbefore⟩ := hc.held (key,before.length) (List.mk_mem_zipIdx_iff_getElem?.mpr hhere)
  have hle : d ≤ near := by
    by_contra hgt
    have hgt := Nat.lt_of_not_le hgt
    exact Nat.ne_of_lt hgt (hc.distance_unique (hhome key) (Nat.lt_trans hgt hd) hd hat hheld)
  refine (probe_eq_some _ _ (hhome key)).mpr ⟨d,Nat.lt_of_le_of_lt hle hlimit,?_,fun j hj => ?_⟩
  · rw [h.taken _ (hslot d) _ hheld hhere,if_pos rfl]
  · obtain ⟨⟨other,place⟩,hk⟩ := Option.ne_none_iff_exists'.mp (hbefore j hj)
    have hget : (before ++ key :: after)[place]? = some other :=
      List.mk_mem_zipIdx_iff_getElem?.mp (hc.mem _ (hslot j) _ hk)
    rw [h.taken _ (hslot j) _ hk hget,if_neg]
    rintro rfl
    rcases Nat.lt_trichotomy place before.length with hlt | rfl | hgt
    · rw [List.getElem?_append_left hlt] at hget
      exact hnew (List.mem_of_getElem? hget)
    · exact Nat.ne_of_lt hj (hc.distance_unique (hhome key) (Nat.lt_trans hj hd) hd hk hheld)
    · obtain ⟨i,rfl⟩ := Nat.exists_eq_add_of_lt hgt
      rw [List.getElem?_append_right (Nat.le_of_lt hgt),Nat.add_assoc,Nat.add_sub_cancel_left,List.getElem?_cons_succ] at hget
      obtain ⟨hi,hval⟩ := List.getElem?_eq_some_iff.mp hget
      have hafter : after = after.take i ++ key :: after.drop (i + 1) := by
        rw [← hval]
        simp
      have hlen : (after.take i).length = i := List.length_take_of_le (Nat.le_of_lt hi)
      generalize after.take i = between,after.drop (i + 1) = later at hafter hlen
      subst hafter hlen
      rw [Nat.add_right_comm] at hk
      exact absurd (slots_order hhome hroom hd (Nat.lt_trans hj hd) hheld hk) (Nat.not_lt.mpr (Nat.le_of_lt hj))

end Searches

end EmbedTemplate.ProbedIndex
