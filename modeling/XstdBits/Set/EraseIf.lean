/-
  File: XstdBits/Set/EraseIf.lean
  Subject: `erase_if` over a set (`erase_if.hpp`), and the walks over its blocks beside it.

  * `testEach` tests keys one after another by a predicate that may keep a state of its own, which
    so sees every call; `eraseIf` is the loop that erases while it steps.
  * what the loop has erased lies behind the iterator, so that `++` over the set as it is comes where
    it came over the set as it was (`nextPosition_behind`), the end with it.
-/
import XstdBits.Algorithm.ForEach
import XstdBits.Container.Machine

namespace XstdBits

namespace SetAdaptor
variable {w : Nat} {V : Vehicle w} {Key σ : Type} (M : KeyMapping Key) (desc : Bool)

/-! ## 1. The loop -/

/-- The keys accepted, in order, and what the predicate is left as. -/
def testEach (pred : Key → σ → Bool × σ) : List Key → σ → List Key × σ
  | [], s => ([], s)
  | key :: keys, s =>
      let tested := pred key s
      let rest := testEach pred keys tested.2
      (if tested.1 = true then key :: rest.1 else rest.1, rest.2)

/-- The loop of `erase_if` from iterator `i` on, `last` being the end as it was at the start. -/
def eraseFrom (pred : Key → σ → Bool × σ) (last : Nat) : (fuel i : Nat) → σ → Action V σ
  | 0, _, _ => fun c => .error .abort c
  | fuel + 1, i, s => fun c =>
      if iteratorEq V i last = true then .ok s c
      else
        match M.fromIndex i with
        | .none => .error .abort c
        | .some key =>
            let tested := pred key s
            if tested.1 = true then
              match eraseAt M desc i c with
              | .error e d => .error e d
              | .ok next d => eraseFrom pred last fuel next tested.2 d
            else eraseFrom pred last fuel (nextPosition desc c i) tested.2 c

/-- `erase_if(c, pred)`: the number erased, and what the predicate is left as. -/
def eraseIf (pred : Key → σ → Bool × σ) (s : σ) : Action V (Nat × σ) := fun c =>
  let originalSize := size c
  match eraseFrom M desc pred (endPos c) (c.size + 1) (beginPos desc c) s c with
  | .error e d => .error e d
  | .ok t d => .ok (originalSize - size d, t) d

/-! ## 2. What it leaves -/

section Erase
variable {M} {desc} {c d : BitBlockContainer V} {U n : Nat} {pred : Key → σ → Bool × σ}

/-- Iterators are equal where they stand at one position. -/
theorem iteratorEq_iff (h : c.Inv) (hn : Stands c n) :
    iteratorEq V n (endPos c) = true ↔ n = endPos c := by
  unfold iteratorEq
  split
  · rename_i hzero
    rw [Bool.and_eq_true, Bool.or_eq_true, beq_iff_eq] at hzero
    have hsize : c.size = 0 := by
      rcases hzero.1 with hs | hc
      · unfold BitBlockContainer.size
        rw [if_pos hs, hzero.2]
      · have := h.capacity hc
        omega
    have := hn.le h
    unfold endPos
    exact iff_of_true rfl (by omega)
  · exact beq_iff_eq

/-- **`++` over a set that lost elements behind the iterator** comes where it came before. -/
theorem nextPosition_behind (h : c.Inv) (hd : d.Inv) (hs : d.size = c.size) (hn : n < c.size)
    (hahead : ∀ p, p < c.size → ahead desc c p < ahead desc c n → d.bit p = c.bit p) :
    nextPosition desc d n = nextPosition desc c n := by
  rw [nextPosition_eq desc hd (by omega), nextPosition_eq desc h hn, hs]
  unfold ahead at hahead
  cases desc
  · refine nextSet_congr fun p hp1 hp2 => hahead p hp2 ?_
    show c.size - p < c.size - n
    omega
  · refine prevSet_congr fun p hp => hahead p (by omega) ?_
    show (if p = c.size then 0 else p + 1) < if n = c.size then 0 else n + 1
    rw [if_neg (by omega), if_neg (by omega)]
    omega

/-- One turn of the loop leaves what the loop goes on with. -/
theorem eraseFrom_step [LT Key] (pred : Key → σ → Bool × σ) (fuel : Nat) (s : σ)
    (hM : M.Bijective U) (h : c.Inv) {key : Key} (hkey : M.isKey key = true)
    (hn : c.bit (M.toIndex key) = true) (hd : d.Inv) (hs : d.size = c.size)
    (hahead : ∀ p, p < c.size → ahead desc c p ≤ ahead desc c (M.toIndex key) →
      d.bit p = c.bit p) :
    ∃ e, eraseFrom M desc pred (endPos c) (fuel + 1) (M.toIndex key) s d =
        eraseFrom M desc pred (endPos c) fuel (nextPosition desc c (M.toIndex key))
          (pred key s).2 e ∧ e.Inv ∧ e.size = c.size ∧
      e.count + (pred key s).1.toNat = d.count ∧
      ∀ p, e.bit p = (d.bit p && !(decide (p = M.toIndex key) && (pred key s).1)) := by
  have hlt := h.lt_size hn
  have hltd : M.toIndex key < d.size := by omega
  have hnd : d.bit (M.toIndex key) = true := (hahead _ hlt (Nat.le_refl _)).trans hn
  have hne : ¬ iteratorEq V (M.toIndex key) (endPos c) = true := by
    rw [iteratorEq_iff h (Or.inl hn)]
    exact Nat.ne_of_lt hlt
  have hnext : nextPosition desc d (M.toIndex key) = nextPosition desc c (M.toIndex key) :=
    nextPosition_behind h hd hs hlt fun p hp ha => hahead p hp (Nat.le_of_lt ha)
  have hfrom := hM.from_to key hkey
  cases htest : (pred key s).1 with
  | false =>
      refine ⟨d, ?_, hd, hs, rfl, fun p => ?_⟩
      · conv_lhs => unfold eraseFrom
        rw [if_neg hne]
        simp only [hfrom]
        rw [htest, if_neg Bool.false_ne_true, hnext]
      · rw [Bool.and_false, Bool.not_false, Bool.and_true]
  | true =>
      have hbit (p : Nat) : (d.assign (M.toIndex key) false).bit p =
          (d.bit p && !(decide (p = M.toIndex key) && true)) := by
        rw [BitBlockContainer.bit_assign hd.shape hltd]
        by_cases hp : p = M.toIndex key <;> simp [hp]
      have hinv : (d.assign (M.toIndex key) false).Inv := hd.assign hltd
      have hsize : (d.assign (M.toIndex key) false).size = d.size :=
        (BitBlockContainer.sameWidth_assign (c := d)).size
      refine ⟨d.assign (M.toIndex key) false, ?_, hinv, hsize.trans hs, ?_, hbit⟩
      · conv_lhs => unfold eraseFrom
        rw [if_neg hne]
        simp only [hfrom]
        rw [htest, if_pos rfl, eraseAt, hfrom]
        simp only [hnext]
      · have hcount := countBits_update (f := d.bit) (g := (d.assign (M.toIndex key) false).bit)
          hltd fun p hp => by rw [hbit, decide_eq_false hp, Bool.false_and, Bool.not_false,
            Bool.and_true]
        rw [hnd, hbit, decide_eq_true rfl, Bool.and_true, Bool.not_true, Bool.and_false] at hcount
        rw [BitBlockContainer.count_eq hinv, BitBlockContainer.count_eq hd, hsize]
        exact hcount

/-- **The loop from any iterator on**: the keys ahead are tested in order, and those accepted leave
    the set. -/
theorem eraseFrom_spec [LT Key] (pred : Key → σ → Bool × σ) (hM : M.Bijective U) (h : c.Inv) :
    ∀ {keys : List Key} {i fuel : Nat} {d : BitBlockContainer V} (s : σ),
      Walks desc c i (keys.map M.toIndex) (endPos c) → (∀ k ∈ keys, M.isKey k = true) →
      keys.length < fuel → d.Inv → d.size = c.size →
      (∀ p, p < c.size → ahead desc c p ≤ ahead desc c i → d.bit p = c.bit p) →
      ∃ e, eraseFrom M desc pred (endPos c) fuel i s d = .ok (testEach pred keys s).2 e ∧
        e.Inv ∧ e.size = c.size ∧ e.count + (testEach pred keys s).1.length = d.count ∧
        ∀ p, e.bit p = true ↔ d.bit p = true ∧ ∀ k ∈ (testEach pred keys s).1, M.toIndex k ≠ p
  | [], i, fuel + 1, d, s, hw, _, _, hd, hs, _ => by
      cases hw
      refine ⟨d, ?_, hd, hs, rfl, fun p => ?_⟩
      · unfold eraseFrom
        rw [if_pos ((iteratorEq_iff h (Or.inr rfl)).mpr rfl)]
        rfl
      · simp [testEach]
  | key :: keys, i, fuel + 1, d, s, hw, hkeys, hf, hd, hs, hahead => by
      have hkey := hkeys key List.mem_cons_self
      rw [List.map_cons] at hw
      cases hw with
      | next hn hw =>
          have hcloser := ahead_next desc h hn
          have hlt := h.lt_size hn
          obtain ⟨d', hrun, hd', hs', hcount', hbit'⟩ :=
            eraseFrom_step pred fuel s hM h hkey hn hd hs hahead
          obtain ⟨e, he, hinv, hsize, hcount, hbit⟩ := eraseFrom_spec pred hM h (pred key s).2 hw
            (fun k hk => hkeys k (List.mem_cons_of_mem _ hk)) (Nat.lt_of_succ_lt_succ hf) hd' hs'
            fun p hp ha => by
              have hpn : p ≠ M.toIndex key := by
                rintro rfl
                omega
              rw [hbit', decide_eq_false hpn, Bool.false_and, Bool.not_false, Bool.and_true]
              exact hahead p hp (by omega)
          have htests : testEach pred (key :: keys) s =
              (if (pred key s).1 = true then key :: (testEach pred keys (pred key s).2).1
                else (testEach pred keys (pred key s).2).1, (testEach pred keys (pred key s).2).2) :=
            rfl
          rw [htests]
          refine ⟨e, hrun.trans he, hinv, hsize, ?_, fun p => ?_⟩
          · cases htest : (pred key s).1 with
            | false =>
                rw [htest, Bool.toNat_false, Nat.add_zero] at hcount'
                rw [if_neg Bool.false_ne_true]
                exact hcount.trans hcount'
            | true =>
                rw [htest, Bool.toNat_true] at hcount'
                rw [if_pos rfl, List.length_cons]
                omega
          · rw [hbit, hbit']
            cases htest : (pred key s).1 with
            | false => simp
            | true =>
                rw [if_pos rfl, List.forall_mem_cons]
                by_cases hp : p = M.toIndex key
                · simp [hp]
                · simp [hp, Ne.symm hp]

/-- **`erase_if` tests the keys plain iteration reads**, each once and in its order, and leaves the
    set without those accepted. -/
theorem eraseIf_spec [LT Key] (pred : Key → σ → Bool × σ) (hM : M.Bijective U) (h : c.Inv)
    {keys : List Key} (s : σ)
    (hkeys : ∀ k ∈ keys, M.isKey k = true) (hpos : keys.map M.toIndex = positions desc c) :
    ∃ d, eraseIf M desc pred s c =
        .ok ((testEach pred keys s).1.length, (testEach pred keys s).2) d ∧
      d.Inv ∧ d.size = c.size ∧
      ∀ p, d.bit p = true ↔ c.bit p = true ∧ ∀ k ∈ (testEach pred keys s).1, M.toIndex k ≠ p := by
  have hw := walks_positions desc h
  have hlen := length_walks h hw
  rw [← hpos] at hw
  rw [← hpos, List.length_map] at hlen
  obtain ⟨d, hrun, hd, hs, hcount, hbit⟩ := eraseFrom_spec pred hM h s hw hkeys
    (Nat.lt_succ_of_le hlen) h rfl fun _ _ _ => rfl
  refine ⟨d, ?_, hd, hs, hbit⟩
  have herased : size c - size d = (testEach pred keys s).1.length := by
    unfold size
    omega
  unfold eraseIf
  rw [hrun]
  dsimp only
  rw [herased]

/-- The keys accepted are among those tested, in their order. -/
theorem testEach_sublist : ∀ (keys : List Key) (s : σ), (testEach pred keys s).1.Sublist keys
  | [], _ => List.Sublist.slnil
  | key :: keys, s => by
      have ih := testEach_sublist keys (pred key s).2
      show (if (pred key s).1 = true then key :: (testEach pred keys (pred key s).2).1
        else (testEach pred keys (pred key s).2).1).Sublist (key :: keys)
      split
      · exact ih.cons_cons key
      · exact ih.cons key

/-! ## 3. Beside plain iteration -/

/-- Keys are read at their positions. -/
theorem mapM_toIndex [LT Key] (hM : M.Bijective U) : ∀ {keys : List Key},
    (∀ k ∈ keys, M.isKey k = true) → (keys.map M.toIndex).mapM M.fromIndex = some keys
  | [], _ => rfl
  | key :: keys, hkeys => by
      rw [List.map_cons, List.mapM_cons, hM.from_to key (hkeys key List.mem_cons_self),
        mapM_toIndex hM fun k hk => hkeys k (List.mem_cons_of_mem _ hk)]
      rfl

/-- **The walks by blocks are plain iteration.** Over a set in either order, `bit_for_each` calls
    its function with the keys the iterators read, of the reversed set in the other order;
    `bit_find_if` finds what `std::find_if` finds; and `erase_if` tests each of the keys once, in
    order, erases those accepted and returns their number. Over a sequence, whole or a window,
    `bit_for_each` calls its function with the bools in order, or against it. -/
theorem block_walks_exact [LinearOrder Key] (hM : M.Bijective U) (h : c.Inv)
    (hlent : V.storage = .lent → c.numBlocks ≤ V.maxNumBlocks) :
    (∀ (reverse : Bool) (f : Key → σ → σ) (s : σ), walkKeys M desc c reverse f s =
      (if reverse then iteratedBack M desc c else iterated M desc c).map
        fun keys => keys.foldl (fun s key => f key s) s) ∧
    ((∀ p, c.bit p = true → p < U) →
      ∃ keys, iterated M desc c = some keys ∧ iteratedBack M desc c = some keys.reverse ∧
        (∀ pred, ∃ n, bitFindIf M desc c pred = some n ∧ stdFindIf M desc c pred = some n) ∧
        ∀ (pred : Key → σ → Bool × σ) (s : σ), ∃ d, eraseIf M desc pred s c =
            .ok ((testEach pred keys s).1.length, (testEach pred keys s).2) d ∧
          d.Inv ∧ d.size = c.size ∧
          ∀ k, contains M d k = true ↔ contains M c k = true ∧ k ∉ (testEach pred keys s).1) ∧
    ∀ r : Bools V, (V.storage = .lent → r.bits.numBlocks ≤ V.maxNumBlocks) →
      ∀ (reverse : Bool) (f : Bool → σ → σ) (s : σ), r.walkBools reverse f s =
        (if reverse then r.toList.reverse else r.toList).foldl (fun s b => f b s) s := by
  refine ⟨fun reverse f s => walkKeys_eq h hlent reverse, fun hU => ?_,
    fun r hr reverse f s => Bools.walkBools_eq hr reverse⟩
  obtain ⟨t, ht⟩ := exists_represents desc hM h hU
  have hbits : ∀ p ∈ positions desc c, c.bit p = true := fun p hp =>
    ((positions_spec desc h).1 p).mp hp
  obtain ⟨keys, hread, hpos, hin⟩ := mapM_fromIndex ht hM hbits
  have hkeys : ∀ k ∈ keys, M.isKey k = true := fun k hk => ht.isKey k (hin k hk)
  refine ⟨keys, hread, ?_, fun pred => bitFindIf_eq hM h hlent hU, fun pred s => ?_⟩
  · unfold iteratedBack
    rw [positionsBack_eq desc h, ← hpos, ← List.map_reverse]
    exact mapM_toIndex hM fun k hk => hkeys k (List.mem_reverse.mp hk)
  · obtain ⟨d, hrun, hd, hsize, hbit⟩ := eraseIf_spec pred hM h s hkeys hpos
    have haccepted : ∀ m ∈ (testEach pred keys s).1, m ∈ keys := fun m hm =>
      (testEach_sublist keys s).subset hm
    refine ⟨d, hrun, hd, hsize, fun k => ?_⟩
    rw [contains_eq hd, contains_eq h, Bool.and_eq_true, Bool.and_eq_true, hbit, and_assoc]
    refine and_congr_right fun hk => and_congr_right fun _ => ?_
    exact ⟨fun hall hmem => hall k hmem rfl, fun hnot m hm he =>
      hnot (hM.inj (hkeys m (haccepted m hm)) hk he ▸ hm)⟩

end Erase

/-- The set of three and nine in descending order: reversed, and searched for a key below five. -/
theorem block_walks_exact_nine : ∃ c : BitBlockContainer (byteVector true), c.size = 10 ∧
    walkKeys (unsignedMapping 8) true c true (fun key keys => keys ++ [key]) [] = some [3, 9] ∧
    ∃ n, bitFindIf (unsignedMapping 8) true c (fun key => decide (key.val < 5)) = some n ∧
      stdFindIf (unsignedMapping 8) true c (fun key => decide (key.val < 5)) = some n := by
  have h0 : Reachable (byteVector true) fun _ => BitBlockContainer.default (byteVector true) 0 :=
    .start fun _ => 0
  have h1 := Reachable.step .ample 0 (.growingInsert 3) h0 (Or.inl rfl) rfl
  have h2 := Reachable.step .ample 0 (.growingInsert 9) h1 (Or.inl rfl) rfl
  have h := h2.inv (Or.inl rfl) 0
  obtain ⟨hwalk, hsearch, -⟩ := @block_walks_exact 8 (byteVector true) (Fin (2 ^ 8))
    (List (Fin (2 ^ 8))) (unsignedMapping 8) true _ (2 ^ 8) _ (unsignedMapping_bijective 8) h nofun
  refine ⟨_, ?_, (hwalk true (fun key keys => keys ++ [key]) []).trans ?_, ?_⟩
  · rfl
  · rfl
  · obtain ⟨keys, -, -, hfind, -⟩ := hsearch fun p hp => by
      have := h.lt_size hp
      exact Nat.lt_of_lt_of_le this (Nat.le_of_ble_eq_true rfl)
    exact hfind fun key => decide (key.val < 5)

end SetAdaptor

end XstdBits
