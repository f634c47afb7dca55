import Swazz.AddressBlocks

/-! Which addresses the runner refuses to dial (`safenet`) and the coordinator refuses to
contact (`utils/ssrf`), and the blocks that each list amounts to. -/
namespace Swazz.BlockedAddresses

open AddressBlocks

/-! The runner: `net.IP` is a slice of 4 or 16 bytes, a network its base and its mask. -/

abbrev IP := List (BitVec 8)

def IP.To4 (ip : IP) : Option IP :=
  if ip.length = 4 then some ip
  else if ip.length = 16 ∧ (ip.take 10).all (· == 0) ∧ ip[10]? = some 0xff ∧
      ip[11]? = some 0xff then some (ip.drop 12)
  else none

structure IPNet where
  ip : IP
  mask : List (BitVec 8)

def networkNumberAndMask (n : IPNet) : IP × List (BitVec 8) :=
  let ip := n.ip.To4.getD n.ip
  if ip.length ≠ 4 ∧ ip.length ≠ 16 then ([], [])
  else if n.mask.length = 4 then if ip.length = 4 then (ip, n.mask) else ([], [])
  else if n.mask.length = 16 then
    if ip.length = 4 then (ip, n.mask.drop 12) else (ip, n.mask)
  else ([], [])

def IPNet.Contains (n : IPNet) (ip : IP) : Bool :=
  let (nn, m) := networkNumberAndMask n
  let ip := ip.To4.getD ip
  ip.length == nn.length && List.zipWith (· &&& ·) nn m == List.zipWith (· &&& ·) ip m

/-- `net.ParseCIDR` of an address and a number of leading bits. -/
def ParseCIDR (ip : IP) (ones : ℕ) : IPNet :=
  let m := leadingOnes ones ip.length
  ⟨List.zipWith (· &&& ·) ip m, m⟩

def cidr4 (b0 b1 b2 b3 : BitVec 8) (ones : ℕ) : IPNet := ParseCIDR [b0, b1, b2, b3] ones

/-- The address with the words to the left and to the right of `::`. -/
def ip6 (left right : List ℕ) : IP :=
  let words := left ++ List.replicate (8 - (left.length + right.length)) 0 ++ right
  words.flatMap fun w => [BitVec.ofNat 8 (w / 256), BitVec.ofNat 8 w]

def cidr6 (left right : List ℕ) (ones : ℕ) : IPNet := ParseCIDR (ip6 left right) ones

def blockedCIDRs : List IPNet := [
  cidr4 10 0 0 0 8,
  cidr4 172 16 0 0 12,
  cidr4 192 168 0 0 16,
  cidr4 127 0 0 0 8,
  cidr4 169 254 0 0 16,
  cidr6 [] [1] 128,
  cidr6 [0xfe80] [] 10,
  cidr4 0 0 0 0 8,
  cidr6 [] [] 128,
  cidr4 100 64 0 0 10,
  cidr4 198 18 0 0 15,
  cidr4 224 0 0 0 4,
  cidr4 240 0 0 0 4,
  cidr6 [0xfc00] [] 7,
  cidr6 [0xfec0] [] 10,
  cidr6 [0xff00] [] 8,
  cidr4 192 0 0 0 24,
  cidr4 192 0 2 0 24,
  cidr4 198 51 100 0 24,
  cidr4 203 0 113 0 24,
  cidr4 192 88 99 0 24,
  cidr6 [0x2001, 0xdb8] [] 32,
  cidr6 [0x64, 0xff9b] [] 96,
  cidr6 [0x64, 0xff9b, 1] [] 48]

def IsReservedOrPrivate (ip : Option IP) : Bool :=
  match ip with
  -- Fail closed: an address that did not parse is blocked.
  | none => true
  | some ip =>
    let ip := ip.To4.getD ip
    blockedCIDRs.any fun network => network.Contains ip

/-! The coordinator: an address is four numbers below 256 or eight below 65536. -/

def isBlockedIPv4 : ℕ × ℕ × ℕ × ℕ → Bool
  | (b0, b1, b2, _) =>
    if b0 = 0 then true
    else if b0 = 10 then true
    else if b0 = 100 ∧ b1 ≥ 64 ∧ b1 ≤ 127 then true
    else if b0 = 127 then true
    else if b0 = 169 ∧ b1 = 254 then true
    else if b0 = 172 ∧ b1 ≥ 16 ∧ b1 ≤ 31 then true
    else if b0 = 192 ∧ b1 = 0 ∧ b2 = 0 then true
    else if b0 = 192 ∧ b1 = 0 ∧ b2 = 2 then true
    else if b0 = 192 ∧ b1 = 168 then true
    else if b0 = 198 ∧ (b1 = 18 ∨ b1 = 19) then true
    else if b0 = 198 ∧ b1 = 51 ∧ b2 = 100 then true
    else if b0 = 203 ∧ b1 = 0 ∧ b2 = 113 then true
    else if b0 ≥ 224 then true
    else false

/-- The four numbers in two words. -/
def embedded (high low : ℕ) : ℕ × ℕ × ℕ × ℕ :=
  ((high >>> 8) &&& 0xff, high &&& 0xff, (low >>> 8) &&& 0xff, low &&& 0xff)

def isBlockedIPv6 (w : Vector ℕ 8) : Bool :=
  if w[0] = 0 ∧ w[1] = 0 ∧ w[2] = 0 ∧ w[3] = 0 ∧ w[4] = 0 ∧ w[5] = 0 ∧ w[6] = 0 ∧ w[7] = 1 then
    true
  else if w.all (· == 0) then true
  else if w[0] &&& 0xffc0 = 0xfe80 then true
  else if w[0] &&& 0xfe00 = 0xfc00 then true
  else if w[0] &&& 0xffc0 = 0xfec0 then true
  else if w[0] &&& 0xff00 = 0xff00 then true
  else if w[0] = 0 ∧ w[1] = 0 ∧ w[2] = 0 ∧ w[3] = 0 ∧ w[4] = 0 ∧ w[5] = 0xffff then
    isBlockedIPv4 (embedded w[6] w[7])
  else if w[0] = 0 ∧ w[1] = 0 ∧ w[2] = 0 ∧ w[3] = 0 ∧ w[4] = 0 ∧ w[5] = 0 ∧
      (w[6] ≠ 0 ∨ w[7] > 1) then
    isBlockedIPv4 (embedded w[6] w[7])
  else if w[0] = 0x2002 then isBlockedIPv4 (embedded w[1] w[2])
  else false

/-! An address as each side holds it. -/

def octets (a : ℕ) : ℕ × ℕ × ℕ × ℕ :=
  (a / 2 ^ 24 % 256, a / 2 ^ 16 % 256, a / 2 ^ 8 % 256, a % 256)

def words (a : ℕ) : Vector ℕ 8 := Vector.ofFn fun i => a / 65536 ^ (7 - i.val) % 65536

/-! The blocks of each list. -/

def block4 (b0 b1 b2 b3 ones : ℕ) : Block := ⟨((b0 * 256 + b1) * 256 + b2) * 256 + b3, 32 - ones⟩

/-- The IPv4 blocks of both lists. -/
def private4 : List Block := [
  block4 0 0 0 0 8, block4 10 0 0 0 8, block4 100 64 0 0 10, block4 127 0 0 0 8,
  block4 169 254 0 0 16, block4 172 16 0 0 12, block4 192 0 0 0 24, block4 192 0 2 0 24,
  block4 192 168 0 0 16, block4 198 18 0 0 15, block4 198 51 100 0 24, block4 203 0 113 0 24,
  block4 224 0 0 0 4, block4 240 0 0 0 4]

/-- 6to4 relay anycast, of the runner's list alone. -/
def relay4 : Block := block4 192 88 99 0 24

def block6 (left right : List ℕ) (ones : ℕ) : Block := ⟨value (ip6 left right), 128 - ones⟩

/-- The IPv6 blocks of both lists. -/
def private6 : List Block := [
  block6 [] [1] 128, block6 [] [] 128, block6 [0xfe80] [] 10, block6 [0xfc00] [] 7,
  block6 [0xfec0] [] 10, block6 [0xff00] [] 8]

/-- Documentation and NAT64, of the runner's list alone. -/
def runnerOnly6 : List Block := [
  block6 [0x2001, 0xdb8] [] 32, block6 [0x64, 0xff9b] [] 96, block6 [0x64, 0xff9b, 1] [] 48]

def Private6 (a : ℕ) : Prop := ∃ b ∈ private6, b.Mem a

def RunnerOnly6 (a : ℕ) : Prop := ∃ b ∈ runnerOnly6, b.Mem a

def Private4 (a : ℕ) : Prop := ∃ b ∈ private4, b.Mem a

variable {a : ℕ}

theorem private4_iff : Private4 a ↔
    a / 2 ^ 24 = 0 ∨ a / 2 ^ 24 = 10 ∨ a / 2 ^ 22 = 401 ∨ a / 2 ^ 24 = 127 ∨
      a / 2 ^ 16 = 43518 ∨ a / 2 ^ 20 = 2753 ∨ a / 2 ^ 8 = 12582912 ∨
      a / 2 ^ 8 = 12582914 ∨ a / 2 ^ 16 = 49320 ∨ a / 2 ^ 17 = 25353 ∨
      a / 2 ^ 8 = 12989284 ∨ a / 2 ^ 8 = 13303921 ∨ a / 2 ^ 28 = 14 ∨ a / 2 ^ 28 = 15 := by
  simp only [Private4, private4, block4, Block.Mem, List.mem_cons, List.not_mem_nil, or_false,
    exists_eq_or_imp, exists_eq_left]
  norm_num

/-- An early return. -/
theorem ite_true_iff {p : Prop} [Decidable p] {b : Bool} :
    (if p then true else b) = true ↔ p ∨ b = true := by
  by_cases hp : p <;> simp [hp]

theorem isBlockedIPv4_octets (ha : a < 2 ^ 32) :
    isBlockedIPv4 (octets a) = true ↔ Private4 a := by
  have h8 (c : ℕ) (hc : c < 256) : a / 2 ^ 24 % 256 = c ↔ a / 2 ^ 24 = c := by omega
  have h16 (c d : ℕ) (hc : c < 256) (hd : d < 256) :
      a / 2 ^ 24 % 256 = c ∧ a / 2 ^ 16 % 256 = d ↔ a / 2 ^ 16 = c * 256 + d := by omega
  have h24 (c d e : ℕ) (hc : c < 256) (hd : d < 256) (he : e < 256) :
      a / 2 ^ 24 % 256 = c ∧ a / 2 ^ 16 % 256 = d ∧ a / 2 ^ 8 % 256 = e ↔
        a / 2 ^ 8 = (c * 256 + d) * 256 + e := by omega
  -- The four that are compared by a range instead of by octets.
  have h100 : a / 2 ^ 24 % 256 = 100 ∧ a / 2 ^ 16 % 256 ≥ 64 ∧ a / 2 ^ 16 % 256 ≤ 127 ↔
      a / 2 ^ 22 = 401 := by omega
  have h172 : a / 2 ^ 24 % 256 = 172 ∧ a / 2 ^ 16 % 256 ≥ 16 ∧ a / 2 ^ 16 % 256 ≤ 31 ↔
      a / 2 ^ 20 = 2753 := by omega
  have h198 : a / 2 ^ 24 % 256 = 198 ∧ (a / 2 ^ 16 % 256 = 18 ∨ a / 2 ^ 16 % 256 = 19) ↔
      a / 2 ^ 17 = 25353 := by omega
  have h224 : a / 2 ^ 24 % 256 ≥ 224 ↔ a / 2 ^ 28 = 14 ∨ a / 2 ^ 28 = 15 := by omega
  simp only [octets, isBlockedIPv4, ite_true_iff, Bool.false_eq_true, or_false, h100, h172, h198,
    h224]
  rw [private4_iff, h24 192 0 0, h24 192 0 2, h24 198 51 100, h24 203 0 113, h16 169 254,
    h16 192 168, h8 0, h8 10, h8 127]
  all_goals decide

theorem masked_twice (xs m : List (BitVec 8)) :
    List.zipWith (· &&& ·) (List.zipWith (· &&& ·) xs m) m = List.zipWith (· &&& ·) xs m := by
  induction xs generalizing m with
  | nil => rfl
  | cons x xs ih =>
    cases m with
    | nil => rfl
    | cons b m =>
      have hand : x &&& b &&& b = x &&& b := by rw [BitVec.and_assoc, BitVec.and_self]
      simp [hand, ih]

/-- Neither the base nor the address is one that `net` shortens to four bytes. -/
def Whole (ip : IP) : Prop := ip.To4.getD ip = ip

instance (ip : IP) : Decidable (Whole ip) := inferInstanceAs (Decidable (ip.To4.getD ip = ip))

theorem whole_of_length {ip : IP} (h : ip.length = 4) : Whole ip := by
  rw [Whole, IP.To4, if_pos h]
  rfl

theorem networkNumberAndMask_ParseCIDR {ip : IP} {ones : ℕ}
    (hlen : ip.length = 4 ∨ ip.length = 16) (hbase : Whole (ParseCIDR ip ones).ip) :
    networkNumberAndMask (ParseCIDR ip ones) =
      (List.zipWith (· &&& ·) ip (leadingOnes ones ip.length),
        leadingOnes ones ip.length) := by
  have hwhole : (ParseCIDR ip ones).ip.To4.getD (ParseCIDR ip ones).ip =
      List.zipWith (· &&& ·) ip (leadingOnes ones ip.length) := hbase
  rw [networkNumberAndMask, hwhole]
  rcases hlen with hlen | hlen <;> simp [ParseCIDR, hlen]

/-- A network contains the addresses that agree with its base on the leading bits. -/
theorem contains_ParseCIDR {ip x : IP} {ones : ℕ} (hlen : ip.length = 4 ∨ ip.length = 16)
    (hones : ones ≤ 8 * ip.length) (hbase : Whole (ParseCIDR ip ones).ip) (hx : Whole x) :
    (ParseCIDR ip ones).Contains x = true ↔ x.length = ip.length ∧
      value x / 2 ^ (8 * ip.length - ones) = value ip / 2 ^ (8 * ip.length - ones) := by
  have hwhole : x.To4.getD x = x := hx
  simp only [IPNet.Contains, networkNumberAndMask_ParseCIDR hlen hbase, hwhole, masked_twice,
    Bool.and_eq_true, beq_iff_eq, List.length_zipWith, length_leadingOnes, Nat.min_self]
  constructor
  · rintro ⟨hxlen, hmask⟩
    exact ⟨hxlen, ((masked_eq_iff hones rfl hxlen).mp hmask).symm⟩
  · rintro ⟨hxlen, hvalue⟩
    exact ⟨hxlen, (masked_eq_iff hones rfl hxlen).mpr hvalue.symm⟩

theorem contains_cidr4 {x : IP} (hx : Whole x) (b0 b1 b2 b3 : BitVec 8) {ones : ℕ}
    (hones : ones ≤ 32) : (cidr4 b0 b1 b2 b3 ones).Contains x = true ↔ x.length = 4 ∧
      (block4 b0.toNat b1.toNat b2.toNat b3.toNat ones).Mem (value x) := by
  have hbase : Whole (ParseCIDR [b0, b1, b2, b3] ones).ip :=
    whole_of_length (by simp [ParseCIDR])
  have hvalue : value [b0, b1, b2, b3] =
      ((b0.toNat * 256 + b1.toNat) * 256 + b2.toNat) * 256 + b3.toNat := by
    simp only [value, List.length_cons, List.length_nil]
    ring
  rw [cidr4, contains_ParseCIDR (Or.inl rfl) hones hbase hx, hvalue]
  rfl

theorem contains_cidr6 {x : IP} (hx : Whole x) {left right : List ℕ} {ones : ℕ}
    (hlen : (ip6 left right).length = 16) (hones : ones ≤ 128)
    (hbase : Whole (ParseCIDR (ip6 left right) ones).ip) :
    (cidr6 left right ones).Contains x = true ↔ x.length = 16 ∧
      (block6 left right ones).Mem (value x) := by
  have hbits : ones ≤ 8 * (ip6 left right).length := by omega
  rw [cidr6, contains_ParseCIDR (Or.inr hlen) hbits hbase hx, hlen]
  rfl

/-- The blocks of the runner's list. -/
theorem isReservedOrPrivate_iff {x : IP} (hx : Whole x) :
    IsReservedOrPrivate (some x) = true ↔
      x.length = 4 ∧ (Private4 (value x) ∨ relay4.Mem (value x)) ∨
      x.length = 16 ∧ (Private6 (value x) ∨ RunnerOnly6 (value x)) := by
  have hwhole : x.To4.getD x = x := hx
  simp only [IsReservedOrPrivate, hwhole, blockedCIDRs, List.any_cons, List.any_nil,
    Bool.or_eq_true, Bool.false_eq_true, or_false]
  simp (disch := decide) only [contains_cidr4 hx, contains_cidr6 hx]
  simp only [Private4, private4, Private6, private6, RunnerOnly6, runnerOnly6, List.mem_cons,
    List.not_mem_nil, or_false, exists_eq_or_imp, exists_eq_left, relay4, BitVec.ofNat_eq_ofNat,
    BitVec.toNat_ofNat, Nat.reducePow, Nat.reduceMod]
  -- The same blocks in the order of the lists.
  by_cases h4 : x.length = 4
  · have h16 : x.length ≠ 16 := by omega
    simp only [h4, true_and, Nat.reduceEqDiff, false_and, false_or, or_false]
    grind
  · by_cases h16 : x.length = 16
    · simp only [h16, true_and, Nat.reduceEqDiff, false_and, false_or]
      grind
    · simp [h4, h16]

theorem private6_iff : Private6 a ↔
    a = 1 ∨ a = 0 ∨ a / 2 ^ 118 = 1018 ∨ a / 2 ^ 121 = 126 ∨ a / 2 ^ 118 = 1019 ∨
      a / 2 ^ 120 = 255 := by
  have hone : value (ip6 [] [1]) = 1 := by decide
  have hzero : value (ip6 [] []) = 0 := by decide
  have hlink : value (ip6 [0xfe80] []) = 1018 * 2 ^ 118 := by decide
  have hlocal : value (ip6 [0xfc00] []) = 126 * 2 ^ 121 := by decide
  have hsite : value (ip6 [0xfec0] []) = 1019 * 2 ^ 118 := by decide
  have hmulti : value (ip6 [0xff00] []) = 255 * 2 ^ 120 := by decide
  simp only [Private6, private6, block6, Block.Mem, List.mem_cons, List.not_mem_nil, or_false,
    exists_eq_or_imp, exists_eq_left, hone, hzero, hlink, hlocal, hsite, hmulti]
  norm_num

theorem embedded_eq {high low : ℕ} (hlow : low < 65536) :
    embedded high low = octets (high * 65536 + low) := by
  have hff (n : ℕ) : n &&& 0xff = n % 256 := Nat.and_two_pow_sub_one_eq_mod n 8
  simp only [embedded, octets, hff, Nat.shiftRight_eq_div_pow, Prod.mk.injEq]
  omega

/-- The tests of the first word by a mask. -/
theorem and_mask_eq {w : ℕ} (hw : w < 65536) :
    (w &&& 0xffc0 = 0xfe80 ↔ w / 64 = 1018) ∧ (w &&& 0xfe00 = 0xfc00 ↔ w / 512 = 126) ∧
      (w &&& 0xffc0 = 0xfec0 ↔ w / 64 = 1019) ∧ (w &&& 0xff00 = 0xff00 ↔ w / 256 = 255) := by
  have h6 : w &&& 0xffc0 = w / 64 * 64 := and_leadingOnes (n := 16) (k := 6) hw (by decide)
  have h9 : w &&& 0xfe00 = w / 512 * 512 := and_leadingOnes (n := 16) (k := 9) hw (by decide)
  have h8 : w &&& 0xff00 = w / 256 * 256 := and_leadingOnes (n := 16) (k := 8) hw (by decide)
  rw [h6, h9, h8]
  omega

@[simp] theorem getElem_words {i : ℕ} (hi : i < 8) :
    (words a)[i] = a / 65536 ^ (7 - i) % 65536 := by
  simp [words]

/-- Five zero words, and what is asked of the others. -/
theorem words_zero (ha : a < 2 ^ 128) (p : Prop) : (words a)[0] = 0 ∧ (words a)[1] = 0 ∧
    (words a)[2] = 0 ∧ (words a)[3] = 0 ∧ (words a)[4] = 0 ∧ p ↔ a / 65536 ^ 3 = 0 ∧ p := by
  have hfirst : a / 65536 ^ 7 % 65536 = 0 ↔ a / 65536 ^ 7 = 0 := by omega
  simp only [getElem_words, Nat.reduceSub, ← and_assoc]
  rw [hfirst, digit_step (by decide), digit_step (by decide), digit_step (by decide),
    digit_step (by decide)]

/-- The forms of an IPv6 address that hold an IPv4 address, as the coordinator reads it. -/
theorem isBlockedIPv6_words (ha : a < 2 ^ 128) :
    isBlockedIPv6 (words a) = true ↔ Private6 a ∨
      a / 2 ^ 32 = 0xffff ∧ Private4 (a % 2 ^ 32) ∨
      a / 2 ^ 32 = 0 ∧ 1 < a ∧ Private4 (a % 2 ^ 32) ∨
      a / 2 ^ 112 = 0x2002 ∧ Private4 (a / 2 ^ 80 % 2 ^ 32) := by
  have h5 : (words a)[5] = a / 65536 ^ 2 % 65536 := by simp
  have h6 : (words a)[6] = a / 65536 % 65536 := by simp
  have h7 : (words a)[7] = a % 65536 := by simp
  have hloopback : (words a)[0] = 0 ∧ (words a)[1] = 0 ∧ (words a)[2] = 0 ∧ (words a)[3] = 0 ∧
      (words a)[4] = 0 ∧ (words a)[5] = 0 ∧ (words a)[6] = 0 ∧ (words a)[7] = 1 ↔ a = 1 := by
    rw [words_zero ha, h5, h6, h7]
    omega
  have hmapped : (words a)[0] = 0 ∧ (words a)[1] = 0 ∧ (words a)[2] = 0 ∧ (words a)[3] = 0 ∧
      (words a)[4] = 0 ∧ (words a)[5] = 0xffff ↔ a / 2 ^ 32 = 0xffff := by
    rw [words_zero ha, h5]
    omega
  have hcompatible : (words a)[0] = 0 ∧ (words a)[1] = 0 ∧ (words a)[2] = 0 ∧
      (words a)[3] = 0 ∧ (words a)[4] = 0 ∧ (words a)[5] = 0 ∧
      ((words a)[6] ≠ 0 ∨ (words a)[7] > 1) ↔ a / 2 ^ 32 = 0 ∧ 1 < a := by
    rw [words_zero ha, h5, h6, h7]
    omega
  have hall : (words a).all (· == 0) = true ↔ a = 0 := by
    rw [Vector.all_eq_true]
    constructor
    · intro h
      have hw (i : ℕ) (hi : i < 8) : (words a)[i] = 0 := by simpa using h i hi
      have hlow : (words a)[5] = 0 ∧ (words a)[6] = 0 ∧ (words a)[7] = 0 :=
        ⟨hw 5 (by decide), hw 6 (by decide), hw 7 (by decide)⟩
      have hwords := (words_zero ha _).mp ⟨hw 0 (by decide), hw 1 (by decide),
        hw 2 (by decide), hw 3 (by decide), hw 4 (by decide), hlow⟩
      rw [h5, h6, h7] at hwords
      omega
    · rintro rfl i hi
      simp
  have hfirst : (words a)[0] = a / 2 ^ 112 := by
    rw [getElem_words]
    omega
  have hlast : embedded (words a)[6] (words a)[7] = octets (a % 2 ^ 32) := by
    rw [embedded_eq (by omega), h6, h7]
    congr 1
    omega
  have hmiddle : embedded (words a)[1] (words a)[2] = octets (a / 2 ^ 80 % 2 ^ 32) := by
    rw [getElem_words, getElem_words, embedded_eq (by omega)]
    congr 1
    omega
  obtain ⟨hlink, hlocal, hsite, hmulti⟩ := and_mask_eq (w := a / 2 ^ 112) (by omega)
  have hprivate (n : ℕ) : isBlockedIPv4 (octets (n % 2 ^ 32)) = true ↔ Private4 (n % 2 ^ 32) :=
    isBlockedIPv4_octets (Nat.mod_lt n (by decide))
  have hdiv6 : a / 2 ^ 112 / 64 = a / 2 ^ 118 := by omega
  have hdiv9 : a / 2 ^ 112 / 512 = a / 2 ^ 121 := by omega
  have hdiv8 : a / 2 ^ 112 / 256 = a / 2 ^ 120 := by omega
  simp only [isBlockedIPv6, hloopback, hall, hmapped, hcompatible, hlast, hmiddle]
  simp only [hfirst, hlink, hlocal, hsite, hmulti, hdiv6, hdiv9, hdiv8, ite_true_iff,
    private6_iff, or_assoc]
  -- An address has at most one of the three forms.
  by_cases h1 : a / 2 ^ 32 = 0xffff
  · have hnot0 : ¬a / 2 ^ 32 = 0 := by omega
    have hnot2 : ¬a / 2 ^ 112 = 0x2002 := by omega
    simp only [eq_true h1, eq_false hnot0, eq_false hnot2, if_true, hprivate, true_and, false_and,
      or_false]
  · by_cases h2 : a / 2 ^ 32 = 0 ∧ 1 < a
    · have hnot2 : ¬a / 2 ^ 112 = 0x2002 := by omega
      simp only [eq_false h1, eq_true h2.1, eq_true h2.2, eq_false hnot2, if_true, if_false,
        and_true, hprivate, true_and, false_and, false_or, or_false]
    · have h2' (p : Prop) : ¬(a / 2 ^ 32 = 0 ∧ 1 < a ∧ p) := fun h => h2 ⟨h.1, h.2.1⟩
      by_cases h3 : a / 2 ^ 112 = 0x2002
      · simp only [eq_false h1, eq_false h2, eq_false (h2' _), eq_true h3, if_true, if_false,
          hprivate, true_and, false_and, false_or]
      · simp only [eq_false h1, eq_false h2, eq_false (h2' _), eq_false h3, if_false, false_and,
          or_false, Bool.false_eq_true]

end Swazz.BlockedAddresses
