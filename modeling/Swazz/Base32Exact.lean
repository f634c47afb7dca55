import Swazz.Totp

/-! The encoder and the decoder never mask their 32 bits: the low ones are those not written
yet, and no more than twelve of them are ever looked at. -/
namespace Swazz.Totp

open BitGroups

def bitsOfBytes (b : List (BitVec 8)) : List Bool := (b.map BitVec.toNat).flatMap (toBits 8)

/-- The character of a group of five bits. -/
def charOf (n : ℕ) : Char := ALPHABET.getD n ' '

/-- The encoding of RFC 4648 without its padding: the bits of the bytes in groups of five, with
zeros added to the last group. -/
def rfcBase32 (b : List (BitVec 8)) : List Char :=
  (groups 5 (padded 5 (bitsOfBytes b))).map charOf

/-- The padding completes a group of eight characters. -/
def rfcPadded (b : List (BitVec 8)) : List Char :=
  rfcBase32 b ++ List.replicate ((8 - (rfcBase32 b).length % 8) % 8) '='

/-- The low bits of the accumulator are the bits that are pending. -/
def Holds (value : BitVec 32) (pending : List Bool) : Prop :=
  value.toNat % 2 ^ pending.length = ofBits pending

variable {value : BitVec 32} {l m : List Bool}

/-- The accumulator loses its upper bits when it is shifted, none of those that are pending. -/
theorem Holds.shiftLeft (h : Holds value l) (hlen : l.length + m.length ≤ 32) {n : BitVec 32}
    (hn : n.toNat = ofBits m) : Holds (value <<< m.length ||| n) (l ++ m) := by
  have hlt : n.toNat < 2 ^ m.length := hn ▸ ofBits_lt m
  have hdvd : 2 ^ (l.length + m.length) ∣ 2 ^ 32 := Nat.pow_dvd_pow 2 hlen
  have hor : (value <<< m.length ||| n).toNat % 2 ^ (l.length + m.length) =
      (value.toNat * 2 ^ m.length + n.toNat) % 2 ^ (l.length + m.length) := by
    rw [BitVec.toNat_or, BitVec.toNat_shiftLeft, Nat.or_mod_two_pow, Nat.mod_mod_of_dvd _ hdvd,
      ← Nat.or_mod_two_pow, ← Nat.shiftLeft_add_eq_or_of_lt hlt, Nat.shiftLeft_eq]
  have hsplit : value.toNat * 2 ^ m.length + n.toNat =
      value.toNat / 2 ^ l.length * 2 ^ (l.length + m.length) + ofBits (l ++ m) := by
    have hdiv := Nat.div_add_mod value.toNat (2 ^ l.length)
    rw [h] at hdiv
    rw [ofBits_append, hn, ← hdiv, Nat.mul_add_div (Nat.two_pow_pos _),
      Nat.div_eq_of_lt (ofBits_lt l), pow_add]
    ring
  rw [Holds, List.length_append, hor, hsplit, Nat.mul_add_mod_self_right, ← List.length_append,
    Nat.mod_eq_of_lt (ofBits_lt _)]

/-- The upper bits of what is pending, read from the accumulator. -/
theorem Holds.read (h : Holds value (l ++ m)) :
    value.toNat / 2 ^ m.length % 2 ^ l.length = ofBits l := by
  rw [← Nat.mod_mul_right_div_self, mul_comm, ← pow_add, ← List.length_append, h, ofBits_div]

theorem Holds.drop (h : Holds value (l ++ m)) : Holds value m := by
  have hdvd : 2 ^ m.length ∣ 2 ^ (l ++ m).length :=
    Nat.pow_dvd_pow 2 (by rw [List.length_append]; omega)
  rw [Holds, ← Nat.mod_mod_of_dvd _ hdvd, h, ofBits_mod]

/-! The encoder. -/

theorem five_bits (x : BitVec 32) : (x &&& 31#32).toNat = x.toNat % 2 ^ 5 := by
  rw [BitVec.toNat_and]
  exact Nat.and_two_pow_sub_one_eq_mod x.toNat 5

/-- The inner loop writes the full groups of five. -/
theorem write_eq {pending : List Bool} (h : Holds value pending) (out : List Char) :
    Encoder.write ⟨pending.length, value, out⟩ =
      ⟨(leftover 5 pending).length, value, out ++ (groups 5 pending).map charOf⟩ := by
  induction hlen : pending.length using Nat.strong_induction_on generalizing pending out with
  | _ n ih =>
    subst hlen
    rw [Encoder.write]
    by_cases hle : 5 ≤ pending.length
    · have hsplit := List.take_append_drop 5 pending
      have htake : (pending.take 5).length = 5 := List.length_take_of_le hle
      have hdrop : (pending.drop 5).length = pending.length - 5 := List.length_drop
      rw [← hsplit] at h
      have hread := h.read
      rw [htake, hdrop] at hread
      have hchar : ((value >>> (pending.length - 5)) &&& 31#32).toNat = ofBits (pending.take 5) := by
        rw [five_bits, BitVec.toNat_ushiftRight, Nat.shiftRight_eq_div_pow, hread]
      have hrest := ih (pending.drop 5).length (by omega) h.drop
        (out ++ [charOf (ofBits (pending.take 5))]) rfl
      rw [hdrop] at hrest
      have hgroups : groups 5 pending = ofBits (pending.take 5) :: groups 5 (pending.drop 5) := by
        rw [groups, dif_pos ⟨by decide, hle⟩]
      have hleft : leftover 5 pending = leftover 5 (pending.drop 5) := by
        conv_lhs => rw [← hsplit]
        exact leftover_append_of_length (by decide) htake _
      simp only [hle, dif_pos, hchar]
      rw [← charOf, hrest, hgroups, hleft, List.map_cons, List.append_assoc, List.singleton_append]
    · simp only [hle, dif_neg, not_false_eq_true]
      rw [groups_of_lt (by omega), leftover_of_lt (by omega), List.map_nil, List.append_nil]

/-- The outer loop writes the full groups of all bits so far and keeps the others. -/
theorem foldl_read {pending : List Bool} (h : Holds value pending) (hlt : pending.length < 5)
    (out : List Char) (b : List (BitVec 8)) :
    ∃ value', Holds value' (leftover 5 (pending ++ bitsOfBytes b)) ∧
      b.foldl Encoder.read ⟨pending.length, value, out⟩ =
        ⟨(leftover 5 (pending ++ bitsOfBytes b)).length, value',
          out ++ (groups 5 (pending ++ bitsOfBytes b)).map charOf⟩ := by
  induction b generalizing value pending out with
  | nil =>
    have hnil : pending ++ bitsOfBytes [] = pending := List.append_nil pending
    rw [hnil, groups_of_lt hlt, leftover_of_lt hlt, List.map_nil, List.append_nil]
    exact ⟨value, h, rfl⟩
  | cons x b ih =>
    set byte := toBits 8 x.toNat with hbyte
    have hlen : byte.length = 8 := length_toBits 8 _
    have hcons : pending ++ bitsOfBytes (x :: b) = pending ++ byte ++ bitsOfBytes b := by
      rw [List.append_assoc]
      rfl
    have hx : (x.setWidth 32).toNat = ofBits byte := by
      rw [hbyte, ofBits_toBits, BitVec.toNat_setWidth, Nat.mod_eq_of_lt x.isLt,
        Nat.mod_eq_of_lt (lt_trans x.isLt (by decide))]
    have hshift : Holds (value <<< 8 ||| x.setWidth 32) (pending ++ byte) := by
      have hshift := h.shiftLeft (m := byte) (by omega) hx
      rw [hlen] at hshift
      exact hshift
    have hwrite := write_eq hshift out
    rw [List.length_append, hlen] at hwrite
    have hleft : (leftover 5 (pending ++ byte)).length < 5 := by
      rw [length_leftover]
      exact Nat.mod_lt _ (by decide)
    have hkeep : Holds (value <<< 8 ||| x.setWidth 32) (leftover 5 (pending ++ byte)) := by
      apply Holds.drop (l := (pending ++ byte).take ((pending ++ byte).length / 5 * 5))
      rw [leftover, List.take_append_drop]
      exact hshift
    obtain ⟨value', hvalue', hfold⟩ := ih hkeep hleft (out ++ (groups 5 (pending ++ byte)).map charOf)
    obtain ⟨hgroups, hrest⟩ := groups_append (k := 5) (by decide) (pending ++ byte) (bitsOfBytes b)
    refine ⟨value', ?_, ?_⟩
    · rw [hcons, hrest]
      exact hvalue'
    · rw [List.foldl_cons, Encoder.read, hwrite, hfold, hcons, hrest, hgroups, List.map_append,
        List.append_assoc]

/-- The last group is completed by zeros. -/
theorem groups_padded_eq (l : List Bool) : groups 5 (padded 5 l) = groups 5 l ++
    if 0 < (leftover 5 l).length then
      [ofBits (leftover 5 l) * 2 ^ (5 - (leftover 5 l).length)] else [] := by
  have hmod := Nat.mod_lt l.length (by decide : 0 < 5)
  have hlen := length_leftover 5 l
  rw [padded, (groups_append (by decide) l _).1]
  congr 1
  split
  · rename_i hpos
    have hzeros : (5 - l.length % 5) % 5 = 5 - l.length % 5 := Nat.mod_eq_of_lt (by omega)
    have hfull : (leftover 5 l ++ List.replicate (5 - l.length % 5) false).length = 5 := by
      rw [List.length_append, List.length_replicate, hlen]
      omega
    have hone := groups_append_of_length (k := 5) (by decide) hfull []
    rw [List.append_nil, groups_of_lt (l := []) (by decide)] at hone
    rw [hzeros, hone, ofBits_append, ofBits_zeros, List.length_replicate, hlen, add_zero]
  · rename_i hpos
    have hzero : l.length % 5 = 0 := by omega
    have hnil : leftover 5 l = [] := List.length_eq_zero_iff.mp (by omega)
    rw [hzero, hnil]
    exact groups_of_lt (by decide)

theorem base32Encode_eq (b : List (BitVec 8)) : base32Encode b = rfcBase32 b := by
  have hstart : Holds 0 [] := rfl
  obtain ⟨value, hvalue, hfold⟩ := foldl_read hstart (by decide) [] b
  rw [List.nil_append] at hvalue hfold
  have hlt : (leftover 5 (bitsOfBytes b)).length < 5 := by
    rw [length_leftover]
    exact Nat.mod_lt _ (by decide)
  rw [base32Encode, rfcBase32, groups_padded_eq, List.map_append]
  rw [List.length_nil] at hfold
  simp only [hfold, List.nil_append]
  split
  · rename_i hpos
    have hlast : ((value <<< (5 - (leftover 5 (bitsOfBytes b)).length)) &&& 31#32).toNat =
        ofBits (leftover 5 (bitsOfBytes b)) * 2 ^ (5 - (leftover 5 (bitsOfBytes b)).length) := by
      set rest := leftover 5 (bitsOfBytes b)
      have hzeros : (0#32).toNat = ofBits (List.replicate (5 - rest.length) false) :=
        (ofBits_zeros _).symm
      have hfull : rest.length + (5 - rest.length) = 5 := by omega
      have hshift := hvalue.shiftLeft (by rw [List.length_replicate]; omega) hzeros
      rw [Holds, List.length_append, List.length_replicate, hfull, BitVec.or_zero, ofBits_append,
        ofBits_zeros, List.length_replicate, add_zero] at hshift
      rw [five_bits, hshift]
    rw [hlast]
    rfl
  · rw [List.map_nil, List.append_nil]

/-! The decoder. -/

theorem idxOf_charOf : ∀ n < 32, ALPHABET.idxOf? (charOf n) = some n := by
  decide

theorem eight_bits (x : BitVec 32) : ((x &&& 0xff#32).setWidth 8).toNat = x.toNat % 2 ^ 8 := by
  have hand : (x &&& 0xff#32).toNat = x.toNat % 2 ^ 8 := by
    rw [BitVec.toNat_and]
    exact Nat.and_two_pow_sub_one_eq_mod x.toNat 8
  rw [BitVec.toNat_setWidth, hand, Nat.mod_mod]

/-- The bytes that are written so far, in a buffer of `n` bytes. -/
def written (n : ℕ) (bytes : List (BitVec 8)) : List (BitVec 8) :=
  bytes ++ List.replicate (n - bytes.length) 0

theorem written_set {n : ℕ} {bytes : List (BitVec 8)} (h : bytes.length < n) (b : BitVec 8) :
    (written n bytes).set bytes.length b = written n (bytes ++ [b]) := by
  obtain ⟨r, hr⟩ : ∃ r, n - bytes.length = r + 1 := ⟨n - bytes.length - 1, by omega⟩
  have hrest : n - (bytes ++ [b]).length = r := by
    rw [List.length_append, List.length_singleton]
    omega
  rw [written, written, hr, hrest, List.set_append_right _ _ (Nat.le_refl _), Nat.sub_self,
    List.replicate_succ, List.set_cons_zero, List.append_assoc, List.singleton_append]

/-- The decoder writes the full groups of eight of all bits so far and keeps the others. -/
theorem foldl_decode {n : ℕ} {pending : List Bool} (h : Holds value pending)
    (hlt : pending.length < 8) (bytes : List (BitVec 8)) (idxs : List ℕ) (hidx : ∀ i ∈ idxs, i < 32)
    (hn : bytes.length + (groups 8 (pending ++ idxs.flatMap (toBits 5))).length ≤ n) :
    (idxs.foldl Decoder.read ⟨pending.length, value, bytes.length, written n bytes⟩).buffer =
      written n (bytes ++
        (groups 8 (pending ++ idxs.flatMap (toBits 5))).map (BitVec.ofNat 8)) := by
  induction idxs generalizing value pending bytes with
  | nil =>
    rw [List.flatMap_nil, List.append_nil, groups_of_lt hlt, List.map_nil, List.append_nil]
    rfl
  | cons idx idxs ih =>
    set five := toBits 5 idx with hfive
    have hlen : five.length = 5 := length_toBits 5 _
    have hcons : pending ++ (idx :: idxs).flatMap (toBits 5) =
        pending ++ five ++ idxs.flatMap (toBits 5) := by
      rw [List.append_assoc]
      rfl
    have hx : (BitVec.ofNat 32 idx).toNat = ofBits five := by
      have hidx : idx < 2 ^ 5 := hidx idx List.mem_cons_self
      rw [hfive, ofBits_toBits, BitVec.toNat_ofNat, Nat.mod_eq_of_lt hidx,
        Nat.mod_eq_of_lt (lt_trans hidx (by decide))]
    have hshift : Holds (value <<< 5 ||| BitVec.ofNat 32 idx) (pending ++ five) := by
      have hshift := h.shiftLeft (m := five) (by omega) hx
      rw [hlen] at hshift
      exact hshift
    have hplus : (pending ++ five).length = pending.length + 5 := by
      rw [List.length_append, hlen]
    have hidxs : ∀ i ∈ idxs, i < 32 := fun i hi => hidx i (List.mem_cons_of_mem idx hi)
    rw [hcons] at hn ⊢
    rw [List.foldl_cons, Decoder.read]
    by_cases hle : 8 ≤ pending.length + 5
    · -- a byte is complete: the first eight of the pending bits
      set byte := (pending ++ five).take 8 with hbyte
      set rest := (pending ++ five).drop 8 with hrest
      have hsplit : byte ++ rest = pending ++ five := List.take_append_drop 8 _
      have hbytelen : byte.length = 8 := List.length_take_of_le (by omega)
      have hrestlen : rest.length = pending.length + 5 - 8 := by
        rw [hrest, List.length_drop, hplus]
      rw [← hsplit, List.append_assoc, groups_append_of_length (by decide) hbytelen] at hn ⊢
      rw [← hsplit] at hshift
      have hread := hshift.read
      rw [hbytelen, hrestlen] at hread
      have hb : ((((value <<< 5 ||| BitVec.ofNat 32 idx) >>> (pending.length + 5 - 8)) &&&
          0xff#32).setWidth 8) = BitVec.ofNat 8 (ofBits byte) := by
        apply BitVec.eq_of_toNat_eq
        have hlt8 := ofBits_lt byte
        rw [hbytelen] at hlt8
        rw [eight_bits, BitVec.toNat_ushiftRight, Nat.shiftRight_eq_div_pow, hread,
          BitVec.toNat_ofNat, Nat.mod_eq_of_lt hlt8]
      rw [List.length_cons] at hn
      have hnext := ih hshift.drop (by omega) (bytes ++ [BitVec.ofNat 8 (ofBits byte)]) hidxs
        (by rw [List.length_append, List.length_singleton]; omega)
      rw [hrestlen, List.length_append, List.length_singleton] at hnext
      simp only [hle, if_true, hb]
      rw [written_set (by omega), hnext, List.map_cons, List.append_assoc, List.singleton_append]
    · simp only [hle, if_false]
      have hnext := ih hshift (by omega) bytes hidxs hn
      rw [hplus] at hnext
      exact hnext

theorem foldlM_read (idxs : List ℕ) (hidx : ∀ i ∈ idxs, i < 32) (d : Decoder) :
    (idxs.map charOf).foldlM Decoder.readChar d = .ok (idxs.foldl Decoder.read d) := by
  induction idxs generalizing d with
  | nil => rfl
  | cons idx idxs ih =>
    rw [List.map_cons, List.foldlM_cons, Decoder.readChar,
      idxOf_charOf idx (hidx idx List.mem_cons_self)]
    exact ih (fun i hi => hidx i (List.mem_cons_of_mem idx hi)) _

theorem idx_lt {n : ℕ} {b : List (BitVec 8)} (h : n ∈ groups 5 (padded 5 (bitsOfBytes b))) :
    n < 32 := lt_of_mem_groups h

theorem base32Decode_of_clean {s : List Char} {b : List (BitVec 8)}
    (h : stripPadding (toUpperCase s) = rfcBase32 b) : base32Decode s = .ok b := by
  set idxs := groups 5 (padded 5 (bitsOfBytes b)) with hidxs
  have hlt : ∀ i ∈ idxs, i < 32 := fun i hi => idx_lt hi
  have hgroups : groups 8 (idxs.flatMap (toBits 5)) = b.map BitVec.toNat := by
    refine groups_padded (by decide) (by decide) fun n hn => ?_
    obtain ⟨x, -, rfl⟩ := List.mem_map.mp hn
    exact x.isLt
  have hcount : (groups 8 (idxs.flatMap (toBits 5))).length = idxs.length * 5 / 8 := by
    have hbits : (idxs.flatMap (toBits 5)).length = idxs.length * 5 := by
      simp [List.length_flatMap]
    rw [length_groups (by decide), hbits]
  have hstart : Holds 0 [] := rfl
  have hfold := foldl_decode (n := idxs.length * 5 / 8) hstart (by decide) [] idxs hlt
    (by rw [List.length_nil, List.nil_append, hcount, zero_add])
  have hbytes : (b.map BitVec.toNat).map (BitVec.ofNat 8) = b := by
    have hid : BitVec.ofNat 8 ∘ BitVec.toNat = id := funext fun x => by simp
    rw [List.map_map, hid, List.map_id]
  rw [List.nil_append, List.nil_append, hgroups, hbytes] at hfold
  have hlen : b.length = idxs.length * 5 / 8 := by
    rw [← hcount, hgroups, List.length_map]
  rw [base32Decode, h, rfcBase32, ← hidxs]
  simp only [List.length_map]
  rw [foldlM_read idxs hlt]
  refine congrArg Except.ok (hfold.trans ?_)
  rw [written, hlen, Nat.sub_self]
  exact List.append_nil b

/-! Padding and case. -/

theorem charOf_case : ∀ n < 32, charOf n ≠ '=' ∧ toUpperCase [charOf n] = [charOf n] ∧
    toUpperCase [(charOf n).toLower] = [charOf n] := by
  decide

theorem stripPadding_append {s : List Char} (h : '=' ∉ s) (n : ℕ) :
    stripPadding (s ++ List.replicate n '=') = s := by
  have hstrip : (List.replicate n '=' ++ s.reverse).dropWhile (· = '=') = s.reverse := by
    rw [List.dropWhile_append_of_pos (by simp)]
    rw [← List.mem_reverse] at h
    cases hrev : s.reverse with
    | nil => rfl
    | cons c t =>
      rw [hrev, List.mem_cons, not_or] at h
      exact List.dropWhile_cons_of_neg (by simpa using Ne.symm h.1)
  rw [stripPadding, List.reverse_append, List.reverse_replicate, hstrip, List.reverse_reverse]

/-- Each character may be written in lower case. -/
theorem clean_append {b : List (BitVec 8)} {f : Char → Char} (hf : f = id ∨ f = Char.toLower)
    (n : ℕ) : stripPadding (toUpperCase ((rfcBase32 b).map f ++ List.replicate n '=')) =
      rfcBase32 b := by
  have hpad : toUpperCase (List.replicate n '=') = List.replicate n '=' := by
    induction n with
    | zero => rfl
    | succ n ih =>
      rw [List.replicate_succ, toUpperCase, List.flatMap_cons]
      rw [toUpperCase] at ih
      rw [ih]
      rfl
  have hupper : toUpperCase ((rfcBase32 b).map f) = rfcBase32 b := by
    rw [rfcBase32, toUpperCase]
    have hlt : ∀ i ∈ groups 5 (padded 5 (bitsOfBytes b)), i < 32 := fun i hi => idx_lt hi
    generalize groups 5 (padded 5 (bitsOfBytes b)) = idxs at hlt
    induction idxs with
    | nil => rfl
    | cons i idxs ih =>
      obtain ⟨-, hsame, hlower⟩ := charOf_case i (hlt i List.mem_cons_self)
      have hone : toUpperCase [f (charOf i)] = [charOf i] := by
        rcases hf with rfl | rfl
        · exact hsame
        · exact hlower
      rw [toUpperCase, List.flatMap_singleton] at hone
      rw [List.map_cons, List.map_cons, List.flatMap_cons, hone,
        ih fun j hj => hlt j (List.mem_cons_of_mem i hj)]
      rfl
  have hnopad : '=' ∉ rfcBase32 b := by
    intro hmem
    obtain ⟨i, hi, heq⟩ := List.mem_map.mp hmem
    exact (charOf_case i (idx_lt hi)).1 heq
  have happend : toUpperCase ((rfcBase32 b).map f ++ List.replicate n '=') =
      rfcBase32 b ++ List.replicate n '=' := by
    rw [toUpperCase, List.flatMap_append, ← toUpperCase, ← toUpperCase, hupper, hpad]
  rw [happend, stripPadding_append hnopad]

/-- The encoder writes the encoding of RFC 4648, and the decoder reads it back, with or without
padding and in lower case too. -/
theorem base32_exact (b : List (BitVec 8)) :
    base32Encode b = rfcBase32 b ∧ base32Decode (base32Encode b) = .ok b ∧
      base32Decode (rfcPadded b) = .ok b ∧
      base32Decode ((rfcBase32 b).map Char.toLower) = .ok b ∧
      base32Decode ((rfcPadded b).map Char.toLower) = .ok b := by
  have hplain : ∀ n, base32Decode (rfcBase32 b ++ List.replicate n '=') = .ok b := by
    intro n
    have hclean := clean_append (b := b) (Or.inl rfl) n
    rw [List.map_id] at hclean
    exact base32Decode_of_clean hclean
  have hlower : ∀ n, base32Decode ((rfcBase32 b).map Char.toLower ++ List.replicate n '=') =
      .ok b := fun n => base32Decode_of_clean (clean_append (Or.inr rfl) n)
  refine ⟨base32Encode_eq b, ?_, hplain _, ?_, ?_⟩
  · rw [base32Encode_eq, ← List.append_nil (rfcBase32 b)]
    exact hplain 0
  · rw [← List.append_nil ((rfcBase32 b).map Char.toLower)]
    exact hlower 0
  · rw [rfcPadded, List.map_append, List.map_replicate]
    exact hlower _

example : base32Encode [0x66, 0x6f, 0x6f] = "MZXW6".toList ∧
    base32Decode "mzxw6===".toList = .ok [0x66, 0x6f, 0x6f] := by
  decide +kernel

end Swazz.Totp
