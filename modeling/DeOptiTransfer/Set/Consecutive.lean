import DeOptiTransfer.Base.Mixing
import DeOptiTransfer.Set.Runs

/-!
# Consecutive keys

The hash multiplies by an odd constant, so its low `t` bits tell any `2 ^ t`
consecutive keys apart, and a table has more slots than keys.

* `homes_apart`: the hash on a run of keys;
* `Table.atHome`: keys with different homes are in their home slots, in every
  table the probing invariant holds of;
* `Probes.moment`: the tables an insertion probes, those of a growth included;
* `consecutive_keys_stay_home`: both together, over any run of keys.
-/

namespace DeOptiTransfer.U32Set

/-- `v0`, `v0 + 1`, ... modulo `2^32`: `n` keys. -/
def keyRun (v0 : UInt32) (n : Nat) : List UInt32 :=
  (List.range n).map fun i => v0 + UInt32.ofNat i

/-- Insert the keys in this order. -/
def insertAll (keys : List UInt32) (s : U32Set) : Exec U32Set :=
  keys.foldlM (fun s v => do
    let (_, s) ← s.insert v
    .ok s) s

/-- Every stored key is in its home slot. -/
def AtHome (s : U32Set) : Prop := ∀ i v, s.slot i = some v → i = hash v &&& s.mask

/-- The probe loop for `v` ends in its first turn, with the home slot. -/
def Direct (s : U32Set) (v : UInt32) : Prop :=
  ∃ found, ∀ turns,
    s.probe v (turns + 1) (hash v &&& s.mask) = .ok (hash v &&& s.mask, found)

def Full (s : U32Set) : Prop := s.mask = 0 ∨ (s.len + 1) * LOAD_DEN ≥ s.keys.length * LOAD_NUM

/-- Inserting `v` into `s` runs the probe loop for `w` on the table `x`: for `v`
itself, in `s` or in the table `s` grows to, or for a key that growing
reinserts. -/
inductive Probes : Nat → U32Set → UInt32 → U32Set → UInt32 → Prop where
  | place {depth s v} : ¬ Full s → Probes (depth + 1) s v s v
  | grown {depth s v g} : Full s → grow (insertWithin depth) s = .ok g →
      Probes (depth + 1) s v g v
  | rehashed {depth s v key i done rest x y w} : Full s → s.mask ≠ 0 →
      s.keys.zipIdx = done ++ (key, i) :: rest →
      done.foldlM (rehash (insertWithin depth) s.occ) (doubled s) = .ok x →
      occBit s.occ i = .ok true → Probes depth x key y w → Probes (depth + 1) s v y w

/-! ## The hash on a run of keys -/

theorem hash_injective {v w : UInt32} (same : hash v = hash w) : v = w :=
  mul_injective_of_inverse (c := 0x9e3779b1) (i := 0x0e8b2f51) (by decide)
    (UInt32.toNat_inj.mp same)

theorem hash_lt (v : UInt32) : hash v < 2 ^ 32 := UInt32.toNat_lt _

theorem hash_low_bits {t : Nat} (narrow : t ≤ 32) {v w : UInt32}
    (same : hash v % 2 ^ t = hash w % 2 ^ t) : v.toNat % 2 ^ t = w.toNat % 2 ^ t :=
  mul_low_bits_injective (c := 0x9e3779b1) (i := 0x0e8b2f51) (by decide) narrow same

/-- More slots than words: the home slot is the hash. -/
theorem hash_mod_wide {t : Nat} (wide : 32 < t) (v : UInt32) : hash v % 2 ^ t = hash v :=
  Nat.mod_eq_of_lt (Nat.lt_of_lt_of_le (hash_lt v)
    (Nat.pow_le_pow_right Nat.two_pos (Nat.le_of_lt wide)))

theorem key_low_bits (v0 : UInt32) (i : Nat) {t : Nat} (narrow : t ≤ 32) :
    (v0 + UInt32.ofNat i).toNat % 2 ^ t = (v0.toNat + i) % 2 ^ t := by
  rw [UInt32.toNat_add, UInt32.toNat_ofNat', Nat.add_mod_mod,
    Nat.mod_mod_of_dvd _ (Nat.pow_dvd_pow 2 narrow)]

/-- The low bits of the hash tell the keys of a run apart. -/
theorem homes_apart {v0 : UInt32} {n t : Nat} (fits : n ≤ 2 ^ t) {v w : UInt32}
    (hv : v ∈ keyRun v0 n) (hw : w ∈ keyRun v0 n)
    (same : hash v % 2 ^ t = hash w % 2 ^ t) : v = w := by
  rcases Nat.lt_or_ge 32 t with wide | narrow
  · exact hash_injective (by rw [← hash_mod_wide wide v, same, hash_mod_wide wide w])
  · obtain ⟨i, hi, rfl⟩ := List.mem_map.mp hv
    obtain ⟨j, hj, rfl⟩ := List.mem_map.mp hw
    rw [List.mem_range] at hi hj
    have low := hash_low_bits narrow same
    rw [key_low_bits v0 i narrow, key_low_bits v0 j narrow] at low
    have index : Nat.ModEq (2 ^ t) i j := Nat.ModEq.add_left_cancel' _ low
    rw [index.eq_of_lt_of_lt (Nat.lt_of_lt_of_le hi fits) (Nat.lt_of_lt_of_le hj fits)]

/-! ## Home slots -/

section
variable {s : U32Set} {t : Nat} {A : Finset UInt32}

theorem Table.exists_free (h : Table hash s t A) : ∃ i, i < 2 ^ t ∧ s.slot i = none := by
  apply Probing.exists_empty h.probing h.stores
  have load := h.load
  rw [h.len_eq] at load
  simp only [LOAD_DEN, LOAD_NUM] at load
  omega

/-- Keys whose homes differ are in them. -/
theorem Table.atHome (h : Table hash s t A)
    (apart : ∀ v ∈ A, ∀ w ∈ A, hash v % 2 ^ t = hash w % 2 ^ t → v = w) : s.AtHome := by
  intro i v holds
  have inside := lt_of_slot holds
  rw [h.keys_length] at inside
  rw [h.and_mask]
  apply Probing.at_home h.probing h.exists_free _ i v inside holds
  intro i j v w hi hj hv hw same
  exact apart v ((h.stores v).mpr ⟨i, hi, hv⟩) w ((h.stores w).mpr ⟨j, hj, hw⟩) same

theorem Table.slot_home (h : Table hash s t A) (home : s.AtHome) {v : UInt32} (hv : v ∈ A) :
    s.slot (hash v &&& s.mask) = some v := by
  obtain ⟨i, _, holds⟩ := (h.stores v).mp hv
  rwa [← home i v holds]

/-- A loop whose key has a home of its own ends there. -/
theorem Table.direct (h : Table hash s t A) (home : s.AtHome) {v : UInt32}
    (apart : ∀ w ∈ A, hash w % 2 ^ t = hash v % 2 ^ t → w = v) : s.Direct v := by
  have inside : hash v &&& s.mask < 2 ^ t := by
    rw [h.and_mask]
    exact Nat.mod_lt _ (Nat.two_pow_pos t)
  refine ⟨(s.slot (hash v &&& s.mask)).isSome, fun turns => ?_⟩
  rw [probe, h.occupied inside, exec_ok_bind]
  cases holds : s.slot (hash v &&& s.mask) with
  | none => simp only [Option.isSome_none, Bool.false_eq_true, ↓reduceIte]
  | some w =>
    have mem : w ∈ A := (h.stores w).mpr ⟨_, inside, holds⟩
    have same := home _ w holds
    rw [h.and_mask, h.and_mask] at same
    have same_key : w = v := apart w mem same.symm
    simp only [Option.isSome_some, ↓reduceIte, getAt_key holds, exec_ok_bind, same_key]

end

/-! ## The tables an insertion probes -/

section
variable {s x : U32Set} {A : Finset UInt32}

theorem not_full {t : Nat} (h : Table hash x t A)
    (room : (x.len + 1) * LOAD_DEN < 2 ^ t * LOAD_NUM) : ¬ Full x := by
  have := h.mask_ne_zero
  rw [Full, h.keys_length]
  omega

/-- Without a growth, only the key itself is looked for. -/
theorem Probes.of_not_full {depth : Nat} {y : U32Set} {v w : UInt32} (probes : Probes depth x v y w)
    (room : ¬ Full x) : y = x ∧ w = v := by
  cases probes with
  | place => exact ⟨rfl, rfl⟩
  | grown full => exact absurd full room
  | rehashed full => exact absurd full room

/-- The tables an insertion probes hold some of the keys of `A`, have room for
one more than all of them, and are probed for one of them or the new key. -/
theorem Probes.moment {v w : UInt32} (h : s.Holds A) (probes : Probes 2 s v x w) :
    ∃ t B, Table hash x t B ∧ B ⊆ A ∧ w ∈ Insert.insert v A ∧ A.card + 1 ≤ 2 ^ t := by
  have enough : ∀ {n t : Nat}, (n + 1) * LOAD_DEN < 2 ^ t * LOAD_NUM → n + 1 ≤ 2 ^ t := by
    intro n t room
    simp only [LOAD_DEN, LOAD_NUM] at room
    omega
  cases probes with
  | place room =>
    rcases h with ⟨rfl, rfl⟩ | ⟨t, table⟩
    · exact absurd (Or.inl rfl) room
    · refine ⟨t, A, table, Finset.Subset.refl A, Finset.mem_insert_self v A, ?_⟩
      rw [Full, table.keys_length, table.len_eq] at room
      exact enough (by omega)
  | grown _ grown =>
    obtain ⟨g, t, run, table, room⟩ := grow_ok h 0
    obtain rfl := Except.ok.inj (grown.symm.trans run)
    rw [table.len_eq] at room
    exact ⟨t, A, table, Finset.Subset.refl A, Finset.mem_insert_self v A, enough room⟩
  | @rehashed _ _ _ key i done rest y _ _ _ ne split run occupied inner =>
    rcases h with ⟨rfl, rfl⟩ | ⟨t, table⟩
    · exact absurd rfl ne
    · have cap : (s.mask + 1) * 2 = 2 ^ (t + 1) := by
        have := Nat.two_pow_pos t
        rw [table.mask_eq, Nat.pow_succ]
        omega
      have start := table.rehashing
      rw [split] at start
      obtain ⟨y', run', bound, B, table', mem⟩ := foldlM_ok
        (fun left => Rehashing s t A (left ++ (key, i) :: rest))
        (fun _ _ _ state => state.turn table 0) done _ start
      have same : y = y' := by
        simp only [doubled, ne, ↓reduceIte, cap] at run
        exact Except.ok.inj (run.symm.trans run')
      subst same
      have sub : B ⊆ A := fun u hu => (mem u).mpr (Or.inl hu)
      have room := table.room_after_doubling (Finset.card_le_card sub)
      rw [← table'.len_eq] at room
      obtain ⟨rfl, rfl⟩ := inner.of_not_full (not_full table' room)
      have inside : i / 64 < s.occ.length := by
        have := bound (w, i) (by simp)
        rw [table.occ_length]
        omega
      have bit : bitAt s.occ i = true := by
        rw [occBit_ok s.occ i inside] at occupied
        exact Except.ok.inj occupied
      have key_mem : w ∈ A := (mem w).mpr (Or.inr ⟨(w, i), by simp, rfl, bit⟩)
      exact ⟨t + 1, B, table', sub, Finset.mem_insert_of_mem key_mem,
        enough (table.room_after_doubling (Nat.le_refl _))⟩

end

/-! ## Inserting a run -/

theorem keyRun_succ (v0 : UInt32) (n : Nat) :
    keyRun v0 (n + 1) = keyRun v0 n ++ [v0 + UInt32.ofNat n] := by
  rw [keyRun, List.range_succ, List.map_append]
  rfl

theorem keyRun_nodup (v0 : UInt32) {n : Nat} (le : n ≤ 2 ^ 32) : (keyRun v0 n).Nodup := by
  apply List.Nodup.map_on _ List.nodup_range
  intro i hi j hj same
  rw [List.mem_range] at hi hj
  have index := congrArg UInt32.toNat (UInt32.add_right_inj v0 |>.mp same)
  rwa [UInt32.toNat_ofNat_of_lt' (Nat.lt_of_lt_of_le hi le),
    UInt32.toNat_ofNat_of_lt' (Nat.lt_of_lt_of_le hj le)] at index

theorem insertAll_ok {s : U32Set} {A : Finset UInt32} (h : s.Holds A) (keys : List UInt32) :
    ∃ s', insertAll keys s = .ok s' ∧ s'.Holds (A ∪ keys.toFinset) := by
  induction keys generalizing s A with
  | nil => exact ⟨s, rfl, by simpa using h⟩
  | cons v rest ih =>
    obtain ⟨s₁, run, holds⟩ := insert_ok h v
    obtain ⟨s₂, runs, holds'⟩ := ih holds
    refine ⟨s₂, ?_, ?_⟩
    · simp only [insertAll, List.foldlM_cons, run, exec_ok_bind]
      exact runs
    · rwa [List.toFinset_cons, Finset.union_insert, ← Finset.insert_union]

/-- Consecutive keys never collide. After the first `n` keys of a run, every one
of them is in its home slot and found there in one turn; and every probe loop of
the next insertion, those of a growth included, is on a table with all its keys
at home and ends in one turn. -/
theorem consecutive_keys_stay_home (start : U32Set) (fresh : Fresh start) (v0 : UInt32) (n : Nat)
    (le : n ≤ 2 ^ 32) :
    ∃ s, insertAll (keyRun v0 n) start = .ok s ∧ s.len = n ∧ s.AtHome ∧
      (∀ v ∈ keyRun v0 n, s.slot (hash v &&& s.mask) = some v ∧ s.contains v = .ok true ∧
        s.Direct v) ∧
      ∀ v ∈ keyRun v0 (n + 1), ∀ x w, Probes 2 s v x w → x.AtHome ∧ x.Direct w := by
  obtain ⟨s, run, holds⟩ := insertAll_ok fresh.holds (keyRun v0 n)
  rw [Finset.empty_union] at holds
  have card : (keyRun v0 n).toFinset.card = n := by
    rw [List.toFinset_card_of_nodup (keyRun_nodup v0 le), keyRun, List.length_map,
      List.length_range]
  have later : ∀ v ∈ keyRun v0 n, v ∈ keyRun v0 (n + 1) := by
    intro v hv
    rw [keyRun_succ]
    exact List.mem_append_left _ hv
  refine ⟨s, run, (len_eq_card holds).trans card, ?_⟩
  have stored : s.AtHome ∧ ∀ v ∈ keyRun v0 n, s.slot (hash v &&& s.mask) = some v ∧ s.Direct v := by
    rcases id holds with ⟨rfl, none⟩ | ⟨t, table⟩
    · constructor
      · intro i v full
        exact absurd (lt_of_slot full) (Nat.not_lt_zero i)
      · intro v hv
        exact absurd (List.mem_toFinset.mpr hv) (none ▸ Finset.notMem_empty v)
    · have fits : n ≤ 2 ^ t := by
        have load := table.load
        rw [table.len_eq, card] at load
        simp only [LOAD_DEN, LOAD_NUM] at load
        omega
      have apart : ∀ v ∈ (keyRun v0 n).toFinset, ∀ w ∈ (keyRun v0 n).toFinset,
          hash v % 2 ^ t = hash w % 2 ^ t → v = w := fun v hv w hw =>
        homes_apart fits (List.mem_toFinset.mp hv) (List.mem_toFinset.mp hw)
      have home := table.atHome apart
      refine ⟨home, fun v hv => ?_⟩
      have mem := List.mem_toFinset.mpr hv
      exact ⟨table.slot_home home mem, table.direct home fun w hw => apart w hw v mem⟩
  refine ⟨stored.1, fun v hv => ?_, ?_⟩
  · obtain ⟨slot, direct⟩ := stored.2 v hv
    refine ⟨slot, ?_, direct⟩
    rw [contains_ok holds, decide_eq_true (List.mem_toFinset.mpr hv)]
  · intro v hv x w probes
    obtain ⟨t, B, table, sub, mem, fits⟩ := probes.moment holds
    rw [card] at fits
    have known : ∀ u ∈ Insert.insert v (keyRun v0 n).toFinset, u ∈ keyRun v0 (n + 1) := by
      intro u hu
      rcases Finset.mem_insert.mp hu with rfl | hu
      · exact hv
      · exact later u (List.mem_toFinset.mp hu)
    have member : ∀ u ∈ B, u ∈ keyRun v0 (n + 1) := fun u hu =>
      later u (List.mem_toFinset.mp (sub hu))
    have home := table.atHome fun u hu u' hu' => homes_apart fits (member u hu) (member u' hu')
    exact ⟨home, table.direct home fun u hu => homes_apart fits (member u hu) (known w mem)⟩

/-- Twenty keys around `u32::MAX`, from a set without a table. -/
theorem consecutive_keys_stay_home_wrapping :
    Fresh .new ∧ 20 ≤ 2 ^ 32 ∧
    ∃ s, insertAll (keyRun 0xfffffff8 20) .new = .ok s ∧ s.len = 20 ∧ s.AtHome := by
  obtain ⟨s, run, len, home, _⟩ :=
    consecutive_keys_stay_home .new .new 0xfffffff8 20 (by decide)
  exact ⟨.new, by decide, s, run, len, home⟩

end DeOptiTransfer.U32Set
