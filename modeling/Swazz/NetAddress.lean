import Mathlib.Data.Nat.Digits.Defs
import Swazz.BlockedAddresses

/-! The texts that Go's `net` makes of addresses and takes them apart into. -/
namespace Swazz.NetAddress

open BlockedAddresses

def dotted (ip : IP) : List Char :=
  ['.'].intercalate (ip.map fun b => Nat.toDigits 10 b.toNat)

/-- The eight words of an IPv6 address. -/
def wordsOf : IP → List ℕ
  | hi :: lo :: rest => (hi.toNat * 256 + lo.toNat) :: wordsOf rest
  | _ => []

def hexWords (ws : List ℕ) : List Char :=
  [':'].intercalate (ws.map fun w => Nat.toDigits 16 w)

/-- The length of the run of zero words at the head. -/
def zeroRun (ws : List ℕ) : ℕ := (ws.takeWhile (· == 0)).length

/-- The first longest run of at least two zero words: where it starts and ends. -/
def longestZeros (ws : List ℕ) : Option (ℕ × ℕ) :=
  (List.range ws.length).foldl
    (fun best i =>
      let l := zeroRun (ws.drop i)
      if 2 ≤ l ∧ best.all (fun b => decide (b.2 - b.1 < l)) then some (i, i + l) else best)
    none

def colonHex (ws : List ℕ) : List Char :=
  match longestZeros ws with
  | some (zeroStart, zeroEnd) =>
    hexWords (ws.take zeroStart) ++ [':', ':'] ++ hexWords (ws.drop zeroEnd)
  | none => hexWords ws

/-- `IP.String` -/
def ipString : Option IP → List Char
  | none => "<nil>".toList
  | some ip =>
    if ip.length = 0 then "<nil>".toList
    else if ip.length ≠ 4 ∧ ip.length ≠ 16 then
      '?' :: ip.flatMap fun b => [Nat.digitChar (b.toNat / 16), Nat.digitChar (b.toNat % 16)]
    else
      match ip.To4 with
      | some p4 => dotted p4
      | none => colonHex (wordsOf ip)

def JoinHostPort (host port : List Char) : List Char :=
  -- A host with a colon is an IPv6 address.
  if host.contains ':' then '[' :: host ++ ']' :: ':' :: port else host ++ ':' :: port

/-- The text up to the last colon and the text after it. -/
def lastColon (hostport : List Char) : Option (List Char × List Char) :=
  if hostport.contains ':' then
    let port := (hostport.reverse.takeWhile (· != ':')).reverse
    some (hostport.take (hostport.length - port.length - 1), port)
  else none

def SplitHostPort (hostport : List Char) : Except String (List Char × List Char) :=
  match lastColon hostport with
  | none => .error "missing port in address"
  | some (before, port) =>
    match hostport with
    | '[' :: rest =>
      let host := rest.takeWhile (· != ']')
      if !rest.contains ']' then .error "missing ']' in address"
      else if rest.length = host.length + 1 then .error "missing port in address"
      else if before.length ≠ host.length + 2 then
        if rest[host.length + 1]? = some ':' then .error "too many colons in address"
        else .error "missing port in address"
      else if rest.contains '[' then .error "unexpected '[' in address"
      else if port.contains ']' then .error "unexpected ']' in address"
      else .ok (host, port)
    | _ =>
      if before.contains ':' then .error "too many colons in address"
      else if hostport.contains '[' then .error "unexpected '[' in address"
      else if hostport.contains ']' then .error "unexpected ']' in address"
      else .ok (before, port)

example : SplitHostPort "[::1]:80".toList = .ok ("::1".toList, "80".toList) := by decide

/-- The characters of the text of an address. -/
def addressChars : List Char := "0123456789abcdef.:?<nil>".toList

theorem digitChar_mem {d : ℕ} (hd : d < 16) : Nat.digitChar d ∈ addressChars := by
  have hall : ∀ d < 16, Nat.digitChar d ∈ addressChars := by decide
  exact hall d hd

theorem mem_toDigitsCore {b fuel n : ℕ} {c : Char} {cs : List Char} (hb : 0 < b)
    (hc : c ∈ Nat.toDigitsCore b fuel n cs) : c ∈ cs ∨ ∃ d < b, c = Nat.digitChar d := by
  induction fuel generalizing n cs with
  | zero => exact Or.inl hc
  | succ fuel ih =>
    have hhead : c ∈ Nat.digitChar (n % b) :: cs → c ∈ cs ∨ ∃ d < b, c = Nat.digitChar d := by
      intro h
      rcases List.mem_cons.mp h with rfl | h
      · exact Or.inr ⟨n % b, Nat.mod_lt n hb, rfl⟩
      · exact Or.inl h
    rw [Nat.toDigitsCore] at hc
    split at hc
    · exact hhead hc
    · exact (ih hc).elim hhead Or.inr

theorem mem_toDigits {b n : ℕ} {c : Char} (hb : 0 < b) (hb16 : b ≤ 16)
    (hc : c ∈ Nat.toDigits b n) : c ∈ addressChars := by
  rcases mem_toDigitsCore hb hc with h | ⟨d, hd, rfl⟩
  · cases h
  · exact digitChar_mem (by omega)

theorem mem_intercalate {sep : Char} {css : List (List Char)} {c : Char} {p : Char → Prop}
    (hsep : p sep) (hcss : ∀ cs ∈ css, ∀ c ∈ cs, p c) (hc : c ∈ [sep].intercalate css) : p c := by
  induction css with
  | nil => cases hc
  | cons cs css ih =>
    cases css with
    | nil =>
      have hcs : c ∈ cs := by simpa [List.intercalate] using hc
      exact hcss cs List.mem_cons_self c hcs
    | cons cs' css =>
      have hsplit : c ∈ cs ∨ c = sep ∨ c ∈ [sep].intercalate (cs' :: css) := by
        simpa [List.intercalate] using hc
      rcases hsplit with h | rfl | h
      · exact hcss cs List.mem_cons_self c h
      · exact hsep
      · exact ih (fun cs h => hcss cs (List.mem_cons_of_mem _ h)) h

theorem mem_hexWords {ws : List ℕ} {c : Char} (hc : c ∈ hexWords ws) : c ∈ addressChars := by
  apply mem_intercalate (p := (· ∈ addressChars)) (by decide) ?_ hc
  intro cs hcs c hc
  obtain ⟨w, -, rfl⟩ := List.mem_map.mp hcs
  exact mem_toDigits (by decide) (by decide) hc

theorem mem_dotted {ip : IP} {c : Char} (hc : c ∈ dotted ip) : c ∈ addressChars := by
  apply mem_intercalate (p := (· ∈ addressChars)) (by decide) ?_ hc
  intro cs hcs c hc
  obtain ⟨b, -, rfl⟩ := List.mem_map.mp hcs
  exact mem_toDigits (by decide) (by decide) hc

theorem mem_colonHex {ws : List ℕ} {c : Char} (hc : c ∈ colonHex ws) : c ∈ addressChars := by
  rw [colonHex] at hc
  split at hc
  · rcases List.mem_append.mp hc with h | h
    · rcases List.mem_append.mp h with h | h
      · exact mem_hexWords h
      · have hcolon : [':', ':'].all (· ∈ addressChars) := by decide
        exact of_decide_eq_true (List.all_eq_true.mp hcolon c h)
    · exact mem_hexWords h
  · exact mem_hexWords hc

theorem mem_ipString {ip : Option IP} {c : Char} (hc : c ∈ ipString ip) : c ∈ addressChars := by
  have hall : "<nil>".toList.all (· ∈ addressChars) := by decide
  have hnil (c : Char) (hc : c ∈ "<nil>".toList) : c ∈ addressChars :=
    of_decide_eq_true (List.all_eq_true.mp hall c hc)
  cases ip with
  | none => exact hnil c hc
  | some ip =>
    rw [ipString] at hc
    split_ifs at hc
    · exact hnil c hc
    · rcases List.mem_cons.mp hc with rfl | h
      · decide
      · obtain ⟨b, -, hb⟩ := List.mem_flatMap.mp h
        have hlt : b.toNat < 256 := b.isLt
        have hhigh : Nat.digitChar (b.toNat / 16) ∈ addressChars := digitChar_mem (by omega)
        have hlow : Nat.digitChar (b.toNat % 16) ∈ addressChars := digitChar_mem (by omega)
        simp only [List.mem_cons, List.not_mem_nil, or_false] at hb
        rcases hb with rfl | rfl
        · exact hhigh
        · exact hlow
    · split at hc
      · exact mem_dotted hc
      · exact mem_colonHex hc

end Swazz.NetAddress
