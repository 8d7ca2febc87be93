import Rpsl.Types.RangeText

/-!
# Ranges read from text

`ParseRangeOperator`, `ParsePrefix` and `ParsePrefixRange`. Prefixes are read by `net/netip` once
short and zero-padded IPv4 spellings are written out (`types/addr.go`): its reading is a parameter.
-/

namespace Rpsl

open Text

/-- `strings.Cut` at a byte: the text before the first one, and the text after it if there is
one. -/
def cutAt (sep : Char) (s : Text) : Text × Option Text :=
  let a := s.takeWhile (· != sep)
  (a, if a.length < s.length then some (s.drop (a.length + 1)) else none)

/-- The number a run of digits is. -/
def decimal (s : Text) : Nat := s.foldl (fun n c => 10 * n + (c.toNat - '0'.toNat)) 0

def parseBits (s : Text) : Option Nat :=
  if s.length = 0 ∨ 3 < s.length then none
  else if !s.all Char.isDigit then none
  else if 128 < decimal s then none
  else some (decimal s)

def parseRangeOperator (s : Text) : Option RangeOperator :=
  if s = lit "+" then some ⟨.plus, 0, 0⟩
  else if s = lit "-" then some ⟨.minus, 0, 0⟩
  else
    match cutAt '-' s with
    | (lo, none) => (parseBits lo).map fun n => ⟨.length, n, n⟩
    | (lo, some hi) =>
      match parseBits lo, parseBits hi with
      | some n, some m => if m < n then none else some ⟨.range, n, m⟩
      | _, _ => none

/-- A run of digits, and not an empty one. -/
def isNumber (s : Text) : Bool := s ≠ [] && s.all Char.isDigit

def fillIPv4 (addr bits : Text) : Text :=
  let octets := addr.splitOn '.'
  if !isNumber bits then addr
  else if 3 < octets.length then addr
  else if octets.all fun o => isNumber o && decide (decimal o ≤ 255) then
    addr ++ (List.replicate (4 - octets.length) (lit ".0")).flatten
  else addr

/-- An octet without its leading zeros. -/
def unpadOctet (o : Text) : Text :=
  if 1 < o.length ∧ o.head? = some '0' then
    if o.dropWhile (· == '0') = [] then lit "0" else o.dropWhile (· == '0')
  else o

def unpadIPv4 (s : Text) : Option Text :=
  let octets := s.splitOn '.'
  if octets.length ≠ 4 then none
  else if !octets.all isNumber then none
  else if octets.any fun o => decide (1 < o.length ∧ o.head? = some '0') then
    some (['.'].intercalate (octets.map unpadOctet))
  else none

section

variable (netipParsePrefix : Text → Option Prefix)

def parsePrefix (s : Text) : Option Prefix :=
  match cutAt '/' s with
  | (_, none) => netipParsePrefix s
  | (addr, some bits) =>
    let addr := fillIPv4 addr bits
    let addr := (unpadIPv4 addr).getD addr
    netipParsePrefix (addr ++ '/' :: bits)

/-- The window an operator written after a prefix makes. -/
def writtenWindow (op : RangeOperator) (bits maxBits : Nat) : Option (Nat × Nat) :=
  match op.op with
  | .plus => some (bits, maxBits)
  | .minus => some (bits + 1, maxBits)
  | _ => if op.n < bits ∨ maxBits < op.m then none else some (op.n, op.m)

theorem writtenWindow_wf {op : RangeOperator} {p : Prefix} {lo hi : Nat} (hnm : op.n ≤ op.m)
    (h : writtenWindow op p.masked.bits p.masked.bitLen = some (lo, hi)) :
    RangeWf (some p.masked) lo hi := by
  have hle : p.masked.bits ≤ p.masked.bitLen := p.le
  refine ⟨Prefix.masked_masked p, ?_⟩
  unfold writtenWindow at h
  split at h
  · cases h
    exact ⟨le_rfl, le_rfl, .inl hle⟩
  · cases h
    omega
  · split_ifs at h
    cases h
    omega

theorem parseRangeOperator_le {s : Text} {op : RangeOperator}
    (h : parseRangeOperator s = some op) : op.n ≤ op.m := by
  unfold parseRangeOperator at h
  split_ifs at h
  · cases h
    exact le_rfl
  · cases h
    exact le_rfl
  · split at h
    · obtain ⟨n, -, rfl⟩ := Option.map_eq_some_iff.1 h
      exact le_rfl
    · split at h
      · split_ifs at h with hlt
        cases h
        exact Nat.not_lt.1 hlt
      · cases h

def parsePrefixRange (s : Text) : Option PrefixRange :=
  match cutAt '^' (trimBlank s) with
  | (pfxStr, none) =>
    (parsePrefix netipParsePrefix pfxStr).map fun p =>
      ⟨some p.masked, p.bits, p.bits, Prefix.masked_masked p, le_rfl, p.le, .inl le_rfl⟩
  | (pfxStr, some opStr) =>
    match parsePrefix netipParsePrefix pfxStr with
    | none => none
    | some p =>
      match hop : parseRangeOperator opStr with
      | none => none
      | some op =>
        match hw : writtenWindow op p.masked.bits p.masked.bitLen with
        | none => none
        | some (lo, hi) =>
          some ⟨some p.masked, lo, hi, writtenWindow_wf (parseRangeOperator_le hop) hw⟩

end

end Rpsl
