/-
  File: XstdBits/Set/Iota.lean
  Subject: consecutive keys inserted as a range and one at a time.

  The range asks for its last key alone, the loop for every key on the way, and each request is held
  against a ceiling or put to the memory: what one is granted says nothing of the other's.
  * `Memory.RefusesNothing`: only the ceilings refuse.
  * `doInsert_below`, `doInsert_carried`: a key that can be inserted lets every lower one in, and
    still can be once they are; so one way completes where the other does.
-/
import XstdBits.Set.Insertion
import XstdBits.Container.Reserve

namespace XstdBits

/-! ## 1. Room for more blocks -/

/-- **Memory that refuses nothing** up to the blocks' own `max_size()`, and gives no capacity past
    it. -/
def Memory.RefusesNothing {w : Nat} (V : Vehicle w) (mem : Memory) : Prop :=
  ∀ n, n ≤ V.maxBlocks → ∃ k, mem.allocate n = .ok k ∧ k ≤ V.maxBlocks

theorem ample_refusesNothing {w : Nat} {V : Vehicle w} : Memory.ample.RefusesNothing V :=
  fun n hn => ⟨n, rfl, hn⟩

namespace Blocks
variable {w : Nat} {V : Vehicle w} {mem mem' : Memory} {b b' : Blocks w} {m n : Nat}

/-- Memory that refuses nothing grants what the blocks' own `max_size()` and the width of a
    `std::size_t` allow. -/
theorem allocateFor_iff (hmem : mem.RefusesNothing V) :
    (∃ k, allocateFor V mem n = .ok k) ↔ n ≤ V.maxBlocks ∧ n ≤ V.maxNumBlocks := by
  constructor
  · intro ⟨k, hk⟩
    obtain ⟨hblocks, hnum, -⟩ := allocateFor_ok.mp hk
    exact ⟨hblocks, hnum⟩
  · intro ⟨hblocks, hnum⟩
    obtain ⟨k, hk, -⟩ := hmem n hblocks
    exact ⟨k, allocateFor_ok.mpr ⟨hblocks, hnum, hk⟩⟩

/-- Whichever it is, it makes the same room. -/
theorem makeRoom_any (hmem : mem.RefusesNothing V) (hmem' : mem'.RefusesNothing V) :
    (∃ b', b.makeRoom V mem n = .ok b') ↔ ∃ b', b.makeRoom V mem' n = .ok b' := by
  rw [makeRoom_iff, makeRoom_iff, allocateFor_iff hmem, allocateFor_iff hmem']

/-- Room for more is room for less. -/
theorem makeRoom_mono (hmem : mem.RefusesNothing V) (hm : m ≤ n)
    (h : ∃ b', b.makeRoom V mem n = .ok b') : ∃ b', b.makeRoom V mem m = .ok b' := by
  rw [makeRoom_iff, allocateFor_iff hmem] at h ⊢
  split at h
  · rename_i hc
    rw [if_pos hc]
    exact Nat.le_trans hm h
  · rename_i hc
    rw [if_neg hc]
    omega

/-- **Room for more is there before and after room was made**: what is reserved then was granted, and
    is no more than can be. -/
theorem makeRoom_carried (hmem : mem.RefusesNothing V) {made : Blocks w}
    (hmade : b.makeRoom V mem m = .ok made) (hr : b'.reserved = made.reserved) :
    (∃ x, b.makeRoom V mem n = .ok x) ↔ ∃ x, b'.makeRoom V mem n = .ok x := by
  rw [makeRoom_iff, makeRoom_iff, allocateFor_iff hmem]
  split
  · rfl
  · rename_i hc
    unfold makeRoom at hmade
    rw [if_neg hc] at hmade
    split at hmade
    · cases hmade
      rw [hr]
    · rename_i hmore
      split at hmade
      · cases hmade
      · rename_i k hk
        cases hmade
        obtain ⟨hm, hnum⟩ := (allocateFor_iff hmem).mp ⟨k, hk⟩
        have hk : k ≤ V.maxBlocks := by
          obtain ⟨k', hk', hle⟩ := hmem m hm
          rw [(allocateFor_ok.mp hk).2.2] at hk'
          cases hk'
          exact hle
        have hreserved : b'.reserved = max m k := hr
        omega

end Blocks

/-! ## 2. A key that can be inserted -/

namespace SetAdaptor
variable {w : Nat} {V : Vehicle w} {Key : Type} {M : KeyMapping Key}
  {c d : BitBlockContainer V} {mem mem' : Memory} {x y : Nat}

open Blocks (makeRoom_any makeRoom_mono makeRoom_carried)

theorem guardKey_iff : guardKey M c x = .ok () ↔
    if V.hasStaticSize then x < V.extent
    else (∀ n, M.size = some n → x < n) ∧ widthSum x 1 ≤ V.maxWidth := by
  have hcheck : (BitBlockContainer.checkWidth V (widthSum x 1)).map (fun _ => ()) = .ok () ↔
      widthSum x 1 ≤ V.maxWidth := by
    unfold BitBlockContainer.checkWidth
    split
    · exact iff_of_false nofun (by omega)
    · exact iff_of_true rfl (by omega)
  unfold guardKey
  by_cases hs : V.hasStaticSize = true
  · unfold maxSize
    rw [if_pos hs, if_pos hs, if_pos hs]
    split
    · exact iff_of_false nofun (by omega)
    · exact iff_of_true rfl (by omega)
  · rw [if_neg hs, if_neg hs]
    cases hn : M.size with
    | none => exact hcheck.trans ⟨fun h => ⟨nofun, h⟩, fun h => h.2⟩
    | some n =>
        dsimp only
        split
        · exact iff_of_false nofun fun h => by have := h.1 n rfl; omega
        · refine hcheck.trans ⟨fun h => ⟨?_, h⟩, fun h => h.2⟩
          intro k hk
          cases hk
          omega

theorem guardKey_mono (h : guardKey M c y = .ok ()) (hxy : x ≤ y) : guardKey M d x = .ok () := by
  rw [guardKey_iff] at h ⊢
  by_cases hs : V.hasStaticSize = true
  · rw [if_pos hs] at h ⊢
    exact Nat.lt_of_le_of_lt hxy h
  · rw [if_neg hs] at h ⊢
    refine ⟨fun n hn => Nat.lt_of_le_of_lt hxy (h.1 n hn), Nat.le_trans ?_ h.2⟩
    unfold widthSum
    split <;> split <;> omega

/-- **When a position is inserted**: it is admitted, and where the width has to grow there is room
    for it. -/
theorem doInsert_completes_iff : (∃ r d, doInsert M mem x c = .ok r d) ↔
    guardKey M c x = .ok () ∧ (V.hasStoredSize = true → c.size ≤ x →
      BitBlockContainer.overCapacity V (widthSum x 1) = false ∧
        ∃ b, c.mBlocks.makeRoom V mem (blocksFor w (widthSum x 1)) = .ok b) := by
  constructor
  · intro ⟨r, d, hr⟩
    refine ⟨guardKey_of_doInsert hr, fun hs hge => ?_⟩
    unfold doInsert BitBlockContainer.growingInsert at hr
    rw [guardKey_of_doInsert hr, if_pos ⟨hs, hge⟩] at hr
    dsimp only at hr
    cases hg : BitBlockContainer.resize mem (widthSum x 1) false c with
    | error e t =>
        rw [hg] at hr
        cases hr
    | ok u g => exact BitBlockContainer.resizeTo_iff.mp ⟨g, hg⟩
  · intro ⟨hg, hroom⟩
    unfold doInsert BitBlockContainer.growingInsert
    rw [hg]
    dsimp only
    by_cases hgrow : V.hasStoredSize = true ∧ c.size ≤ x
    · obtain ⟨g, hg'⟩ := (BitBlockContainer.resizeTo_iff (v := false)).mpr (hroom hgrow.1 hgrow.2)
      unfold BitBlockContainer.resize
      rw [if_pos hgrow, hg']
      exact ⟨_, _, rfl⟩
    · rw [if_neg hgrow]
      exact ⟨_, _, rfl⟩

/-- Memories that refuse nothing let the same keys in. -/
theorem doInsert_any (hmem : mem.RefusesNothing V) (hmem' : mem'.RefusesNothing V) :
    (∃ r d, doInsert M mem x c = .ok r d) ↔ ∃ r d, doInsert M mem' x c = .ok r d := by
  rw [doInsert_completes_iff, doInsert_completes_iff, makeRoom_any hmem hmem']

/-- What an insertion leaves reserved. -/
theorem reserved_doInsert {r : Nat × Bool} (hr : doInsert M mem x c = .ok r d) :
    if V.hasStoredSize = true ∧ c.size ≤ x then
      ∃ b, c.mBlocks.makeRoom V mem (blocksFor w (widthSum x 1)) = .ok b ∧
        d.mBlocks.reserved = b.reserved
    else d.mBlocks.reserved = c.mBlocks.reserved := by
  have hg := guardKey_of_doInsert hr
  unfold doInsert BitBlockContainer.growingInsert at hr
  rw [hg] at hr
  dsimp only at hr
  split at hr
  · rename_i hgrow
    cases hr
  · rename_i inserted e hi
    cases hr
    split at hi
    · rename_i hgrow
      rw [if_pos hgrow]
      split at hi
      · cases hi
      · rename_i g hg'
        obtain ⟨fill, blocks, hb, -, hres⟩ := BitBlockContainer.resizeTo_blocks hg'
        cases hi
        unfold Blocks.resize at hb
        split at hb
        · cases hb
        · rename_i b hb'
          cases hb
          exact ⟨b, hb', BitBlockContainer.sameWidth_set.reserved.trans hres⟩
    · rename_i hgrow
      rw [if_neg hgrow]
      cases hi
      exact BitBlockContainer.sameWidth_insert.reserved

theorem widthSum_mono (hxy : x ≤ y) : widthSum x 1 ≤ widthSum y 1 := by
  unfold widthSum
  split <;> split <;> omega

/-- **A key that can be inserted lets every lower one in.** -/
theorem doInsert_below (hmem : mem.RefusesNothing V) (hxy : x ≤ y)
    (h : ∃ r d, doInsert M mem y c = .ok r d) : ∃ r d, doInsert M mem x c = .ok r d := by
  rw [doInsert_completes_iff] at h ⊢
  refine ⟨guardKey_mono h.1 hxy, fun hs hge => ?_⟩
  obtain ⟨hover, hroom⟩ := h.2 hs (Nat.le_trans hge hxy)
  have hle := widthSum_mono hxy
  exact ⟨BitBlockContainer.overCapacity_mono hover hle,
    makeRoom_mono hmem (blocksFor_mono V.bits_pos hle) hroom⟩

/-- **A lower key inserted decides nothing** about a higher one. -/
theorem doInsert_carried (hmem : mem.RefusesNothing V) (h : c.Inv)
    (hv : V.hasStoredSize = true ∨ V.hasStaticSize = true) (hxy : x ≤ y) {r : Nat × Bool}
    (hr : doInsert M mem x c = .ok r d) :
    (∃ r e, doInsert M mem y c = .ok r e) ↔ ∃ r e, doInsert M mem y d = .ok r e := by
  obtain ⟨hd, hsize, -, -⟩ := doInsert_ok h hv hr
  have hres := reserved_doInsert hr
  have hguard : guardKey M c y = .ok () ↔ guardKey M d y = .ok () :=
    ⟨fun h => guardKey_mono h (Nat.le_refl y), fun h => guardKey_mono h (Nat.le_refl y)⟩
  rw [doInsert_completes_iff, doInsert_completes_iff, hguard]
  refine and_congr_right fun hg => forall_congr' fun hs => ?_
  have hx := (doInsert_completes_iff.mp ⟨r, d, hr⟩).2 hs
  by_cases hgrow : c.size ≤ x
  · rw [if_pos ⟨hs, hgrow⟩] at hres
    obtain ⟨b, hb, hreserved⟩ := hres
    rw [makeRoom_carried hmem hb hreserved]
    by_cases hy : x = y
    · subst hy
      refine iff_of_true (fun _ => ⟨(hx hgrow).1, ?_⟩) fun hge => absurd hge (by omega)
      exact (makeRoom_carried hmem hb hreserved).mp (hx hgrow).2
    · exact ⟨fun h' _ => h' (by omega), fun h' _ => h' (by omega)⟩
  · rw [if_neg fun hc => hgrow hc.2] at hres
    have hsame : d.size = c.size := by omega
    rw [hsame]
    refine forall_congr' fun _ => and_congr_right fun _ => ?_
    rw [Blocks.makeRoom_iff, Blocks.makeRoom_iff, hres]

/-! ## 3. Consecutive keys -/

/-- Keys up to one that can be inserted are all inserted. -/
theorem insertKeys_upTo (hmem : mem.RefusesNothing V)
    (hv : V.hasStoredSize = true ∨ V.hasStaticSize = true) :
    ∀ {keys : List Key} {c : BitBlockContainer V}, c.Inv → (∀ k ∈ keys, M.toIndex k ≤ y) →
      (∃ r d, doInsert M mem y c = .ok r d) → ∃ d, insertKeys M mem keys c = .ok () d
  | [], c, _, _, _ => ⟨c, rfl⟩
  | key :: keys, c, h, hle, hy => by
      have hkey := hle key List.mem_cons_self
      obtain ⟨r, d, hr⟩ := doInsert_below hmem hkey hy
      unfold insertKeys
      rw [hr]
      exact insertKeys_upTo hmem hv (doInsert_ok h hv hr).1
        (fun k hk => hle k (List.mem_cons_of_mem _ hk)) ((doInsert_carried hmem h hv hkey hr).mp hy)

/-- Keys that are all inserted had each of them in reach. -/
theorem insertKeys_reached (hmem : mem.RefusesNothing V)
    (hv : V.hasStoredSize = true ∨ V.hasStaticSize = true) :
    ∀ {keys : List Key} {c : BitBlockContainer V}, c.Inv → (∀ k ∈ keys, M.toIndex k ≤ y) →
      y ∈ keys.map M.toIndex → (∃ d, insertKeys M mem keys c = .ok () d) →
      ∃ r d, doInsert M mem y c = .ok r d
  | [], c, _, _, hy, _ => absurd hy List.not_mem_nil
  | key :: keys, c, h, hle, hy, ⟨e, he⟩ => by
      have hkey := hle key List.mem_cons_self
      unfold insertKeys at he
      split at he
      · cases he
      · rename_i r d hr
        rw [List.map_cons, List.mem_cons] at hy
        rcases hy with rfl | hy
        · exact ⟨r, d, hr⟩
        · exact (doInsert_carried hmem h hv hkey hr).mpr
            (insertKeys_reached hmem hv (doInsert_ok h hv hr).1
              (fun k hk => hle k (List.mem_cons_of_mem _ hk)) hy ⟨e, he⟩)

/-- The values of `std::views::iota(lo, lo + len)`. -/
def iotaKeys (lo len : Nat) : List (Fin (2 ^ 64)) := (List.range' lo len).map (Fin.ofNat (2 ^ 64))

theorem toIndex_iotaKeys {lo len : Nat} (htop : lo + len ≤ 2 ^ 64) :
    (iotaKeys lo len).map (unsignedMapping 64).toIndex = List.range' lo len := by
  unfold iotaKeys
  rw [List.map_map]
  conv_rhs => rw [← List.map_id (List.range' lo len)]
  refine List.map_congr_left fun p hp => ?_
  rw [List.mem_range'_1] at hp
  show p % 2 ^ 64 % 2 ^ 64 = p
  omega

/-- The sets of the same positions have the same size. -/
theorem size_eq_of_bits (hc : c.Inv) (hd : d.Inv) (hbit : ∀ p, c.bit p = d.bit p) :
    size c = size d := by
  have hwide (e : BitBlockContainer V) (he : e.Inv) {n : Nat} (hn : e.size ≤ n) :
      size e = countBits e.bit n := by
    rw [countBits_of_clear hn fun p hp _ => he.clear p hp]
    exact BitBlockContainer.count_eq he
  rw [hwide c hc (Nat.le_max_left c.size d.size), hwide d hd (Nat.le_max_right c.size d.size)]
  exact countBits_congr fun p _ => hbit p

/-- **A range of consecutive keys is its keys one at a time**: where the memory either way is put to
    refuses nothing, one completes where the other does; and whatever the memories, where both
    complete they leave the same keys and the same size. -/
theorem iota_agrees (hv : V.storage ≠ .lent) (h : c.Inv) {lo len : Nat} (hlen : 0 < len)
    (htop : lo + len ≤ 2 ^ 64) (mem mem' : Memory) :
    (mem.RefusesNothing V → mem'.RefusesNothing V →
      ((∃ d, insertIota (unsignedMapping 64) mem lo len c = .ok () d) ↔
        ∃ e, insertKeys (unsignedMapping 64) mem' (iotaKeys lo len) c = .ok () e)) ∧
    ∀ d e, insertIota (unsignedMapping 64) mem lo len c = .ok () d →
      insertKeys (unsignedMapping 64) mem' (iotaKeys lo len) c = .ok () e →
      (∀ p, d.bit p = e.bit p) ∧
      (∀ k, contains (unsignedMapping 64) d k = contains (unsignedMapping 64) e k) ∧
      size d = size e := by
  have howned := V.owned_of_not_lent hv
  have hkeys := toIndex_iotaKeys htop
  have hle : ∀ k ∈ iotaKeys lo len, (unsignedMapping 64).toIndex k ≤ lo + (len - 1) := by
    intro k hk
    have hmem := List.mem_map_of_mem (f := (unsignedMapping 64).toIndex) hk
    rw [hkeys, List.mem_range'_1] at hmem
    omega
  have hlast : lo + (len - 1) ∈ (iotaKeys lo len).map (unsignedMapping 64).toIndex := by
    rw [hkeys, List.mem_range'_1]
    omega
  have hiota : (∃ d, insertIota (unsignedMapping 64) mem lo len c = .ok () d) ↔
      ∃ r d, doInsert (unsignedMapping 64) mem (lo + (len - 1)) c = .ok r d := by
    unfold insertIota
    rw [if_neg (by omega), widthSum_last htop]
    dsimp only
    cases doInsert (unsignedMapping 64) mem (lo + (len - 1)) c with
    | error e t => exact iff_of_false nofun nofun
    | ok r d => exact iff_of_true ⟨_, rfl⟩ ⟨_, _, rfl⟩
  refine ⟨fun hmem hmem' => hiota.trans ((doInsert_any hmem hmem').trans
    ⟨insertKeys_upTo hmem' howned h hle, insertKeys_reached hmem' howned h hle hlast⟩),
    fun d e hd he => ?_⟩
  obtain ⟨hdinv, -, hdbit⟩ := insertIota_ok h howned hd fun _ => htop
  obtain ⟨heinv, -, hebit⟩ := insertKeys_ok howned h he
  have hbit (p : Nat) : d.bit p = e.bit p := by
    rw [Bool.eq_iff_iff, hebit, hdbit]
    have hin : (∃ k ∈ iotaKeys lo len, (unsignedMapping 64).toIndex k = p) ↔
        lo ≤ p ∧ p < lo + len := by
      rw [← List.mem_range'_1, ← hkeys, List.mem_map]
    rw [hin]
    by_cases hp : lo ≤ p ∧ p < lo + len
    · rw [if_pos hp]
      exact iff_of_true rfl (Or.inr hp)
    · rw [if_neg hp]
      exact ⟨Or.inl, fun h => h.resolve_right hp⟩
  refine ⟨hbit, fun k => ?_, size_eq_of_bits hdinv heinv hbit⟩
  rw [contains_eq hdinv, contains_eq heinv, hbit]

/-- The keys three to seven go into a set of bytes that holds four already, three and five among
    them: seven keys either way. -/
theorem iota_agrees_five : ∃ d e : BitBlockContainer (byteVector true),
    insertIota (unsignedMapping 64) .ample 3 5 (fourOfTwelve true) = .ok () d ∧
    insertKeys (unsignedMapping 64) .ample (iotaKeys 3 5) (fourOfTwelve true) = .ok () e ∧
    (∀ p, d.bit p = e.bit p) ∧ size d = 7 ∧ size e = 7 := by
  obtain ⟨hboth, hsame⟩ := @iota_agrees 8 (byteVector true) (fourOfTwelve true) (by decide)
    (fourOfTwelve_inv true) 3 5 (Nat.succ_pos 4) (Nat.le_of_ble_eq_true rfl) .ample .ample
  obtain ⟨e, he⟩ := (hboth ample_refusesNothing ample_refusesNothing).mp ⟨_, rfl⟩
  obtain ⟨hbit, -, hsize⟩ := hsame _ e rfl he
  exact ⟨_, e, rfl, he, hbit, by decide, hsize.symm.trans (by decide)⟩

end SetAdaptor

end XstdBits
