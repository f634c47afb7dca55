import Swazz.BlockedAddresses

/-! Where the runner's list and the coordinator's agree. -/
namespace Swazz.BlockedAddresses

open AddressBlocks

variable {a : ℕ}

/-- The IPv4 address that an IPv6 address stands for, by its form. -/
inductive Embeds (a : ℕ) : ℕ → Prop where
  | mapped (h : a / 2 ^ 32 = 0xffff) : Embeds a (a % 2 ^ 32)
  | compatible (h : a / 2 ^ 32 = 0) : Embeds a (a % 2 ^ 32)
  | sixToFour (h : a / 2 ^ 112 = 0x2002) : Embeds a (a / 2 ^ 80 % 2 ^ 32)
  | nat64 (h : (block6 [0x64, 0xff9b] [] 96).Mem a) : Embeds a (a % 2 ^ 32)

/-- Both lists block the address or neither does. -/
def AgreeOn4 (a : ℕ) : Prop :=
  isBlockedIPv4 (octets a) = IsReservedOrPrivate (some (bytes 4 a))

/-- Both lists block the address or neither does, and both do when either blocks the IPv4
address that it embeds. -/
def AgreeOn6 (a : ℕ) : Prop :=
  isBlockedIPv6 (words a) = IsReservedOrPrivate (some (bytes 16 a)) ∧
    ∀ b, Embeds a b →
      isBlockedIPv4 (octets b) = true ∨ IsReservedOrPrivate (some (bytes 4 b)) = true →
      isBlockedIPv6 (words a) = true ∧ IsReservedOrPrivate (some (bytes 16 a)) = true

/-- The addresses that one list has and the other has not. -/
inductive Disputed (a : ℕ) : Prop where
  | runnerOnly (h : RunnerOnly6 a)
  | mapped (h : a / 2 ^ 32 = 0xffff) (hembedded : relay4.Mem (a % 2 ^ 32))
  | compatible (h : a / 2 ^ 32 = 0) (hone : 1 < a)
      (hembedded : Private4 (a % 2 ^ 32) ∨ relay4.Mem (a % 2 ^ 32))
  | sixToFour (h : a / 2 ^ 112 = 0x2002)
      (hembedded : Private4 (a / 2 ^ 80 % 2 ^ 32) ∨ relay4.Mem (a / 2 ^ 80 % 2 ^ 32))

theorem runnerOnly6_iff : RunnerOnly6 a ↔
    a / 2 ^ 96 = 0x20010db8 ∨ a / 2 ^ 32 = 0x64ff9b * 2 ^ 64 ∨ a / 2 ^ 80 = 0x64ff9b0001 := by
  have hdocumentation : value (ip6 [0x2001, 0xdb8] []) = 0x20010db8 * 2 ^ 96 := by decide
  have hnat64 : value (ip6 [0x64, 0xff9b] []) = 0x64ff9b * 2 ^ 96 := by decide
  have hlocal : value (ip6 [0x64, 0xff9b, 1] []) = 0x64ff9b0001 * 2 ^ 80 := by decide
  simp only [RunnerOnly6, runnerOnly6, block6, Block.Mem, List.mem_cons, List.not_mem_nil,
    or_false, exists_eq_or_imp, exists_eq_left, hdocumentation, hnat64, hlocal]
  norm_num

theorem relay4_iff : relay4.Mem a ↔ a / 2 ^ 8 = 0xc05863 := by
  simp only [relay4, block4, Block.Mem]
  norm_num

theorem relay4_not_private (h : relay4.Mem a) : ¬Private4 a := by
  rw [relay4_iff] at h
  rw [private4_iff]
  omega

theorem reserved_bytes4 (a : ℕ) : IsReservedOrPrivate (some (bytes 4 a)) = true ↔
    Private4 (a % 2 ^ 32) ∨ relay4.Mem (a % 2 ^ 32) := by
  have hvalue : value (bytes 4 a) = a % 2 ^ 32 := value_bytes 4 a
  rw [isReservedOrPrivate_iff (whole_of_length (length_bytes 4 a)), hvalue, length_bytes]
  simp

theorem ofNat_eq_iff {n c : ℕ} (hc : c < 256) :
    BitVec.ofNat 8 n = BitVec.ofNat 8 c ↔ n % 256 = c := by
  rw [← BitVec.toNat_inj, BitVec.toNat_ofNat, BitVec.toNat_ofNat, Nat.mod_eq_of_lt hc]

/-- `net` shortens the mapped addresses and no others. -/
theorem To4_bytes (ha : a < 2 ^ 128) :
    IP.To4 (bytes 16 a) = if a / 2 ^ 32 = 0xffff then some (bytes 4 a) else none := by
  have hfirst : a / 256 ^ 15 % 256 = 0 ↔ a / 256 ^ 15 = 0 := by omega
  have hbytes : ((bytes 16 a).take 10).all (· == 0) = true ∧ (bytes 16 a)[10]? = some 0xff ∧
      (bytes 16 a)[11]? = some 0xff ↔ a / 2 ^ 32 = 0xffff := by
    simp only [bytes, List.take_succ_cons, List.take_zero, List.all_cons, List.all_nil,
      Bool.and_true, Bool.and_eq_true, beq_iff_eq, List.getElem?_cons_succ,
      List.getElem?_cons_zero, Option.some.injEq, BitVec.ofNat_eq_ofNat]
    simp only [ofNat_eq_iff (Nat.zero_lt_succ 255), ofNat_eq_iff (Nat.lt_succ_self 255), ← and_assoc]
    rw [hfirst]
    iterate 11 rw [digit_step (by decide)]
    omega
  rw [IP.To4, length_bytes, if_neg (by decide)]
  simp only [true_and, hbytes]
  rfl

theorem reserved_mapped (ha : a < 2 ^ 128) (h : a / 2 ^ 32 = 0xffff) :
    IsReservedOrPrivate (some (bytes 16 a)) = IsReservedOrPrivate (some (bytes 4 a)) := by
  have hshort : IP.To4 (bytes 4 a) = some (bytes 4 a) := by
    rw [IP.To4, length_bytes, if_pos rfl]
  simp only [IsReservedOrPrivate, To4_bytes ha, if_pos h, hshort, Option.getD_some]

theorem reserved_bytes16 (ha : a < 2 ^ 128) (h : a / 2 ^ 32 ≠ 0xffff) :
    IsReservedOrPrivate (some (bytes 16 a)) = true ↔ Private6 a ∨ RunnerOnly6 a := by
  have hwhole : Whole (bytes 16 a) := by
    rw [Whole, To4_bytes ha, if_neg h]
    rfl
  have hvalue : value (bytes 16 a) = a := by
    rw [value_bytes]
    exact Nat.mod_eq_of_lt ha
  rw [isReservedOrPrivate_iff hwhole, hvalue, length_bytes]
  simp

theorem agreeOn4_iff (ha : a < 2 ^ 32) : AgreeOn4 a ↔ ¬relay4.Mem a := by
  have hmod : a % 2 ^ 32 = a := Nat.mod_eq_of_lt ha
  rw [AgreeOn4, Bool.eq_iff_iff, isBlockedIPv4_octets ha, reserved_bytes4, hmod]
  constructor
  · intro h hrelay
    exact relay4_not_private hrelay (h.mpr (Or.inr hrelay))
  · intro hrelay
    exact (or_iff_left hrelay).symm

/-- The IPv4 address that the coordinator reads in an IPv6 address. -/
inductive Reads (a : ℕ) : ℕ → Prop where
  | mapped (h : a / 2 ^ 32 = 0xffff) : Reads a (a % 2 ^ 32)
  | compatible (h : a / 2 ^ 32 = 0) (hone : 1 < a) : Reads a (a % 2 ^ 32)
  | sixToFour (h : a / 2 ^ 112 = 0x2002) : Reads a (a / 2 ^ 80 % 2 ^ 32)

theorem blocked_words (ha : a < 2 ^ 128) :
    isBlockedIPv6 (words a) = true ↔ Private6 a ∨ ∃ b, Reads a b ∧ Private4 b := by
  rw [isBlockedIPv6_words ha]
  constructor
  · rintro (h | ⟨h, hb⟩ | ⟨h, hone, hb⟩ | ⟨h, hb⟩)
    · exact Or.inl h
    · exact Or.inr ⟨_, .mapped h, hb⟩
    · exact Or.inr ⟨_, .compatible h hone, hb⟩
    · exact Or.inr ⟨_, .sixToFour h, hb⟩
  · rintro (h | ⟨b, hreads, hb⟩)
    · exact Or.inl h
    · cases hreads with
      | mapped h => exact Or.inr (Or.inl ⟨h, hb⟩)
      | compatible h hone => exact Or.inr (Or.inr (Or.inl ⟨h, hone, hb⟩))
      | sixToFour h => exact Or.inr (Or.inr (Or.inr ⟨h, hb⟩))

theorem nat64_iff : (block6 [0x64, 0xff9b] [] 96).Mem a ↔ a / 2 ^ 32 = 0x64ff9b * 2 ^ 64 := by
  have hnat64 : value (ip6 [0x64, 0xff9b] []) = 0x64ff9b * 2 ^ 96 := by decide
  simp only [block6, Block.Mem, hnat64]
  norm_num

/-- An address that the coordinator reads an IPv4 address in embeds no other. -/
theorem Reads.eq {b c : ℕ} (h : Reads a b) (hc : Embeds a c) : c = b := by
  cases h with
  | mapped h =>
    cases hc with
    | mapped => rfl
    | compatible => rfl
    | sixToFour h' => omega
    | nat64 => rfl
  | compatible h =>
    cases hc with
    | mapped => rfl
    | compatible => rfl
    | sixToFour h' => omega
    | nat64 => rfl
  | sixToFour h =>
    cases hc with
    | mapped h' => omega
    | compatible h' => omega
    | sixToFour => rfl
    | nat64 h' =>
      rw [nat64_iff] at h'
      omega

theorem Reads.embeds {b : ℕ} (h : Reads a b) : Embeds a b := by
  cases h with
  | mapped h => exact .mapped h
  | compatible h => exact .compatible h
  | sixToFour h => exact .sixToFour h

/-- It lies in no block of either list. -/
theorem Reads.not_listed {b : ℕ} (h : Reads a b) : ¬Private6 a ∧ ¬RunnerOnly6 a := by
  rw [private6_iff, runnerOnly6_iff]
  cases h with
  | mapped h => omega
  | compatible h => omega
  | sixToFour h => omega

theorem runnerOnly6_not_private (h : RunnerOnly6 a) : ¬Private6 a := by
  rw [runnerOnly6_iff] at h
  rw [private6_iff]
  omega

theorem Reads.blocked {b : ℕ} (ha : a < 2 ^ 128) (h : Reads a b) :
    isBlockedIPv6 (words a) = true ↔ Private4 b := by
  rw [blocked_words ha]
  constructor
  · rintro (hprivate | ⟨c, hc, hprivate⟩)
    · exact absurd hprivate h.not_listed.1
    · exact h.eq hc.embeds ▸ hprivate
  · intro hprivate
    exact Or.inr ⟨b, h, hprivate⟩

/-- What either list says of an embedded address. -/
theorem embedded_blocked {b : ℕ} (h : Embeds a b) : isBlockedIPv4 (octets b) = true ∨
    IsReservedOrPrivate (some (bytes 4 b)) = true ↔ Private4 b ∨ relay4.Mem b := by
  have hb : b < 2 ^ 32 := by
    cases h <;> exact Nat.mod_lt _ (by decide)
  rw [isBlockedIPv4_octets hb, reserved_bytes4, Nat.mod_eq_of_lt hb]
  exact or_iff_right_of_imp Or.inl

/-- A mapped address: the runner asks the same IPv4 list. -/
theorem agreeOn6_mapped (ha : a < 2 ^ 128) (h : a / 2 ^ 32 = 0xffff) :
    AgreeOn6 a ↔ ¬relay4.Mem (a % 2 ^ 32) := by
  have hreads : Reads a (a % 2 ^ 32) := .mapped h
  rw [AgreeOn6, Bool.eq_iff_iff, hreads.blocked ha, reserved_mapped ha h, reserved_bytes4]
  constructor
  · rintro ⟨hsame, -⟩ hrelay
    exact relay4_not_private hrelay (hsame.mpr (Or.inr hrelay))
  · intro hrelay
    refine ⟨(or_iff_left hrelay).symm, ?_⟩
    intro b hb hblocked
    have hprivate := (embedded_blocked hb).mp hblocked
    rw [hreads.eq hb] at hprivate
    exact ⟨hprivate.resolve_right hrelay, hprivate⟩

/-- A form that the runner does not read. -/
theorem agreeOn6_unread {b : ℕ} (ha : a < 2 ^ 128) (hreads : Reads a b)
    (h : a / 2 ^ 32 ≠ 0xffff) : AgreeOn6 a ↔ ¬(Private4 b ∨ relay4.Mem b) := by
  have hrunner : ¬(Private6 a ∨ RunnerOnly6 a) :=
    not_or.mpr hreads.not_listed
  rw [AgreeOn6, Bool.eq_iff_iff, hreads.blocked ha, reserved_bytes16 ha h]
  constructor
  · rintro ⟨-, hembedded⟩ hblocked
    exact hrunner (hembedded b hreads.embeds ((embedded_blocked hreads.embeds).mpr hblocked)).2
  · intro hfree
    refine ⟨iff_of_false (fun hprivate => hfree (Or.inl hprivate)) hrunner, ?_⟩
    intro c hc hblocked
    have hprivate := (embedded_blocked hc).mp hblocked
    rw [hreads.eq hc] at hprivate
    exact absurd hprivate hfree

/-- An address of neither form. -/
theorem agreeOn6_plain (ha : a < 2 ^ 128) (hreads : ∀ b, ¬Reads a b) :
    AgreeOn6 a ↔ ¬RunnerOnly6 a := by
  have hmapped : a / 2 ^ 32 ≠ 0xffff := fun h => hreads _ (.mapped h)
  have hcoordinator : isBlockedIPv6 (words a) = true ↔ Private6 a := by
    rw [blocked_words ha]
    exact or_iff_left fun ⟨b, hb, _⟩ => hreads b hb
  rw [AgreeOn6, Bool.eq_iff_iff, hcoordinator, reserved_bytes16 ha hmapped]
  constructor
  · rintro ⟨hsame, -⟩ hrunner
    exact runnerOnly6_not_private hrunner (hsame.mpr (Or.inr hrunner))
  · intro hrunner
    refine ⟨(or_iff_left hrunner).symm, ?_⟩
    intro b hb _
    -- What is left to embed an address are `::`, `::1` and NAT64.
    have hprivate : Private6 a := by
      cases hb with
      | mapped h => exact absurd h hmapped
      | compatible h =>
        have hone : ¬1 < a := fun hone => hreads _ (.compatible h hone)
        rw [private6_iff]
        omega
      | sixToFour h => exact absurd (.sixToFour h) (hreads _)
      | nat64 h =>
        have hlisted : RunnerOnly6 a := by
          rw [runnerOnly6_iff]
          exact Or.inr (Or.inl (nat64_iff.mp h))
        exact absurd hlisted hrunner
    exact ⟨hprivate, Or.inl hprivate⟩

theorem agreeOn6_iff (ha : a < 2 ^ 128) : AgreeOn6 a ↔ ¬Disputed a := by
  by_cases hmapped : a / 2 ^ 32 = 0xffff
  · have hreads : Reads a (a % 2 ^ 32) := .mapped hmapped
    rw [agreeOn6_mapped ha hmapped, not_iff_not]
    constructor
    · exact .mapped hmapped
    · rintro (h | ⟨-, h⟩ | h | h)
      · exact absurd h hreads.not_listed.2
      · exact h
      · omega
      · omega
  · by_cases hreads : ∃ b, Reads a b
    · obtain ⟨b, hb⟩ := hreads
      rw [agreeOn6_unread ha hb hmapped, not_iff_not]
      constructor
      · intro h
        cases hb with
        | mapped h' => exact absurd h' hmapped
        | compatible h' hone => exact .compatible h' hone h
        | sixToFour h' => exact .sixToFour h' h
      · rintro (h | ⟨h', -⟩ | ⟨h', -, h⟩ | ⟨h', h⟩)
        · exact absurd h hb.not_listed.2
        · exact absurd h' hmapped
        · exact hb.eq (.compatible h') ▸ h
        · exact hb.eq (.sixToFour h') ▸ h
    · have hnone : ∀ b, ¬Reads a b := fun b hb => hreads ⟨b, hb⟩
      rw [agreeOn6_plain ha hnone, not_iff_not]
      constructor
      · exact .runnerOnly
      · rintro (h | ⟨h, -⟩ | ⟨h, hone, -⟩ | ⟨h, -⟩)
        · exact h
        · exact absurd h hmapped
        · exact absurd (.compatible h hone) (hnone _)
        · exact absurd (.sixToFour h) (hnone _)

/-- The two lists agree on the addresses that are not disputed, and on no others. -/
theorem block_lists_agree_iff (a : BitVec 32) (b : BitVec 128) :
    (AgreeOn4 a.toNat ↔ ¬relay4.Mem a.toNat) ∧ (AgreeOn6 b.toNat ↔ ¬Disputed b.toNat) :=
  ⟨agreeOn4_iff a.isLt, agreeOn6_iff b.isLt⟩

/-- `192.88.99.1`, `64:ff9b::a00:1` (NAT64 of `10.0.0.1`) and `2002:a00:1::` (6to4 of it). -/
theorem block_lists_differ :
    ¬AgreeOn4 (0xc0586301#32).toNat ∧
      ¬AgreeOn6 (0x64ff9b00000000000000000a000001#128).toNat ∧
      ¬AgreeOn6 (0x20020a000001 <<< 80 : BitVec 128).toNat := by
  refine ⟨?_, ?_, ?_⟩
  · rw [AgreeOn4]
    decide
  · rintro ⟨hsame, -⟩
    revert hsame
    decide +kernel
  · rintro ⟨hsame, -⟩
    revert hsame
    decide +kernel

end Swazz.BlockedAddresses
