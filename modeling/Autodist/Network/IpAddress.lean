import Mathlib.Data.Nat.Digits

/-!
# `Autodist/Network/IpAddress.lean` — `ipaddress.ip_address`, as CPython computes it

`network.py` hands every address text to the standard library's `ip_address`, so what the
repository's functions return is whatever that parser makes of the text they hand it. This file
models the parser on character lists, pinned to CPython's `ipaddress` as of 3.9.5: from that
release on an IPv4 octet with a leading zero is refused (`01.2.3.4` parses under older releases),
and an IPv6 text may end in a `%scope` id (since 3.9). Under an older CPython `ip_address`
accepts more texts, and what is proved here of a text it refuses does not carry over.

* `ipv4Address` is `IPv4Address(s)`: no `/`; exactly four `.`-separated octets, each one to three
  ASCII digits without a leading zero and at most 255; the value is the octets big-endian;
* `ipv6Address` is `IPv6Address(s)`: no `/`; an optional `%scope`; at least three and at most nine
  `:`-separated parts, an IPv4-style last part turned into two hextets, at most one `::` and only
  where the rules of `_ip_int_from_string` allow it, each hextet one to four hex digits;
* `ipAddress` tries the first, then the second, and raises `ValueError` otherwise.

Every `AddressValueError` the two constructors raise is caught by `ip_address`, so their texts never
reach a caller and the two parsers return `Option`; the one message that escapes is `ip_address`'s
own, `notAnAddress`.

The message is `repr(address)` followed by the fixed text; `pyRepr` is `repr` of a `str` as
CPython writes it — the quote chosen by what the text holds, the quote, the backslash and the ASCII
control characters escaped — exactly, for every ASCII text (a non-ASCII character is written as it
is, where CPython escapes the ones it deems unprintable).

`ipv4Address_ipv4String` is the round trip the rest of the project needs: the text `str()` gives an
IPv4 address parses back to that address; `ipv4Address_eq_some` adds the converse, that the parser
accepts no other text, so that two accepted texts read as one address only when they are equal.
`ipAddress_ipv6Exploded` is its IPv6 counterpart, for the
text `IPv6Address.exploded` gives; it rests on `ipAddress_intercalate_hextet4`, what the parser makes
of three to nine full hextets joined by `:` — an address for eight, the `ValueError` otherwise.
-/

set_option autoImplicit false

namespace Autodist
namespace Network

/-! ## 1. Texts -/

/-- `s.split(sep)`: the pieces between the occurrences of `sep`, empty ones included. -/
def split (sep : Char) : List Char → List (List Char)
  | [] => [[]]
  | c :: cs =>
    let pieces := split sep cs
    if c = sep then [] :: pieces else (c :: pieces.headD []) :: pieces.tail

theorem split_of_not_mem {sep : Char} : ∀ {s : List Char}, sep ∉ s → split sep s = [s]
  | [], _ => rfl
  | c :: cs, h => by
    have hc : c ≠ sep := fun hc => h (hc ▸ List.mem_cons_self _ _)
    simp [split, hc, split_of_not_mem fun h' => h (List.mem_cons_of_mem _ h')]

theorem split_append {sep : Char} {t : List Char} :
    ∀ {s : List Char}, sep ∉ s → split sep (s ++ sep :: t) = s :: split sep t
  | [], _ => by simp [split]
  | c :: cs, h => by
    have hc : c ≠ sep := fun hc => h (hc ▸ List.mem_cons_self _ _)
    simp [split, hc, split_append fun h' => h (List.mem_cons_of_mem _ h')]

theorem intercalate_cons_cons {sep : Char} (x y : List Char) (l : List (List Char)) :
    [sep].intercalate (x :: y :: l) = x ++ sep :: [sep].intercalate (y :: l) := by
  simp [List.intercalate]

theorem intercalate_cons_left {sep c : Char} (p : List Char) (ps : List (List Char)) :
    [sep].intercalate ((c :: p) :: ps) = c :: [sep].intercalate (p :: ps) := by
  cases ps <;> simp [List.intercalate]

theorem split_ne_nil (sep : Char) : ∀ s : List Char, split sep s ≠ []
  | [] => List.cons_ne_nil _ _
  | _ :: _ => by simp only [split]; split_ifs <;> exact List.cons_ne_nil _ _

/-- `sep.join(s.split(sep)) == s`. -/
theorem intercalate_split (sep : Char) : ∀ s : List Char, [sep].intercalate (split sep s) = s
  | [] => rfl
  | c :: cs => by
    obtain ⟨p, ps, hps⟩ := List.exists_cons_of_ne_nil (split_ne_nil sep cs)
    have ih := intercalate_split sep cs
    rw [hps] at ih
    simp only [split, hps, List.headD_cons, List.tail_cons]
    split_ifs with hc
    · rw [hc, intercalate_cons_cons, List.nil_append, ih]
    · rw [intercalate_cons_left, ih]

/-- `int(s, 10)` on a text of ASCII digits. -/
def decimalValue (s : List Char) : Nat :=
  s.foldl (fun n c => 10 * n + (c.toNat - '0'.toNat)) 0

/-- `str(n)` for a natural number: its decimal digits, most significant first; `0` for zero. -/
def pyStr (n : Nat) : List Char :=
  if n = 0 then ['0'] else (Nat.digits 10 n).reverse.map Nat.digitChar

/-- The single quote, by its code point. -/
def singleQuote : Char := Char.ofNat 39

/-- The double quote, by its code point. -/
def doubleQuote : Char := Char.ofNat 34

/-- The backslash, by its code point. -/
def backslash : Char := Char.ofNat 92

/-- One character as `repr` writes it between the quotes `q` (`unicode_repr` of CPython's
`unicodeobject.c`): the quote and the backslash escaped; tab, newline and carriage return as `\t`,
`\n`, `\r`; every other ASCII control character as `\xhh`, in lowercase hex; any other character
as it is. -/
def reprChar (q c : Char) : List Char :=
  if c = q ∨ c = backslash then [backslash, c]
  else if c.toNat = 9 then [backslash, 't']
  else if c.toNat = 10 then [backslash, 'n']
  else if c.toNat = 13 then [backslash, 'r']
  else if c.toNat < 32 ∨ c.toNat = 127 then
    [backslash, 'x', Nat.digitChar (c.toNat / 16), Nat.digitChar (c.toNat % 16)]
  else [c]

/-- `repr(s)` for a `str`: in single quotes, or in double quotes when the text holds a single quote
and no double quote, each character written by `reprChar`. -/
def pyRepr (s : List Char) : List Char :=
  let q := if singleQuote ∈ s ∧ doubleQuote ∉ s then doubleQuote else singleQuote
  q :: s.flatMap (reprChar q) ++ [q]

-- `repr("it's")` is `"it's"`; `repr('a"b')` is `'a"b'`; a tab is written `\t`
example : pyRepr ['i', 't', singleQuote, 's'] =
    [doubleQuote, 'i', 't', singleQuote, 's', doubleQuote] ∧
    pyRepr ['a', doubleQuote, 'b'] = [singleQuote, 'a', doubleQuote, 'b', singleQuote] ∧
    pyRepr [Char.ofNat 9] = [singleQuote, backslash, 't', singleQuote] := by
  decide

theorem digitChar_spec : ∀ d < 10, (Nat.digitChar d).isDigit ∧
    (Nat.digitChar d).toNat - '0'.toNat = d ∧ (Nat.digitChar d = '0' → d = 0) := by
  decide

theorem isDigit_iff {c : Char} : c.isDigit ↔ 48 ≤ c.toNat ∧ c.toNat ≤ 57 := by
  simp [Char.isDigit, Char.toNat, UInt32.le_def, UInt32.toNat, BitVec.le_def]

/-- An ASCII digit is the digit of its value. -/
theorem digitChar_toNat_sub {c : Char} (hc : c.isDigit) :
    Nat.digitChar (c.toNat - '0'.toNat) = c := by
  have key : ∀ n < 58, 48 ≤ n → Nat.digitChar (n - 48) = Char.ofNat n := by decide
  rw [isDigit_iff] at hc
  conv_rhs => rw [← Char.ofNat_toNat c]
  exact key _ (by omega) hc.1

theorem decimalValue_digits {ds : List Nat} (h : ∀ d ∈ ds, d < 10) :
    decimalValue (ds.reverse.map Nat.digitChar) = Nat.ofDigits 10 ds := by
  induction ds with
  | nil => rfl
  | cons d ds ih =>
    have hd := (digitChar_spec d (h d (List.mem_cons_self _ _))).2.1
    simp only [decimalValue, List.reverse_cons, List.map_append, List.foldl_append,
      List.map_cons, List.map_nil, List.foldl_cons, List.foldl_nil, Nat.ofDigits_cons] at ih ⊢
    rw [ih fun d hd => h d (List.mem_cons_of_mem _ hd), hd]
    omega

/-- **What `str(n)` is made of**: ASCII digits, read back as `n`, with no leading zero, and at
most three of them below `1000`. -/
theorem pyStr_spec (n : Nat) :
    (∀ c ∈ pyStr n, c.isDigit) ∧ decimalValue (pyStr n) = n ∧ pyStr n ≠ [] ∧
    (pyStr n = ['0'] ∨ (pyStr n).head? ≠ some '0') ∧ (n < 1000 → (pyStr n).length ≤ 3) := by
  by_cases hn : n = 0
  · subst hn; decide
  have hlt : ∀ d ∈ Nat.digits 10 n, d < 10 := fun d hd => Nat.digits_lt_base (by omega) hd
  have hne : Nat.digits 10 n ≠ [] := Nat.digits_ne_nil_iff_ne_zero.mpr hn
  simp only [pyStr, hn, if_false]
  refine ⟨?_, ?_, by simpa using hne, .inr ?_, fun h1000 => ?_⟩
  · simp only [List.mem_map, List.mem_reverse]
    rintro c ⟨d, hd, rfl⟩
    exact (digitChar_spec d (hlt d hd)).1
  · rw [decimalValue_digits hlt, Nat.ofDigits_digits]
  · rw [List.head?_map, List.head?_reverse, List.getLast?_eq_getLast _ hne]
    intro h
    have hlast := hlt _ (List.getLast_mem hne)
    exact Nat.getLast_digit_ne_zero 10 hn ((digitChar_spec _ hlast).2.2 (Option.some.inj h))
  · have hpow := Nat.base_pow_length_digits_le 10 n (by omega) hn
    simp only [List.length_map, List.length_reverse]
    by_contra hlen
    have : 10 ^ 4 ≤ 10 ^ (Nat.digits 10 n).length := Nat.pow_le_pow_right (by omega) (by omega)
    omega

theorem not_mem_pyStr {c : Char} (hc : c.isDigit = false) (n : Nat) : c ∉ pyStr n :=
  fun h => by simp [(pyStr_spec n).1 c h] at hc

/-- `str()` is one-to-one on the naturals: its text reads back as the number. -/
theorem pyStr_injective : Function.Injective pyStr := fun a b h => by
  rw [← (pyStr_spec a).2.1, h, (pyStr_spec b).2.1]

/-- The converse of `pyStr_spec`: a text of ASCII digits with no leading zero is what `str()`
gives for its value. -/
theorem pyStr_decimalValue {o : List Char} (hd : ∀ c ∈ o, c.isDigit) (hne : o ≠ [])
    (hz : o = ['0'] ∨ o.head? ≠ some '0') : pyStr (decimalValue o) = o := by
  rcases hz with rfl | hz
  · rfl
  -- the digits' values, least significant first
  set ds := (o.map fun c => c.toNat - '0'.toNat).reverse with hds
  have hlt : ∀ d ∈ ds, d < 10 := by
    simp only [hds, List.mem_reverse, List.mem_map]
    rintro d ⟨c, hc, rfl⟩
    have := isDigit_iff.mp (hd c hc)
    show c.toNat - 48 < 10
    omega
  have ho : ds.reverse.map Nat.digitChar = o := by
    rw [hds, List.reverse_reverse, List.map_map]
    conv_rhs => rw [← List.map_id o]
    refine List.map_congr_left fun c hc => ?_
    rw [Function.comp_apply, id, digitChar_toNat_sub (hd c hc)]
  have hlast : ∀ h : ds ≠ [], ds.getLast h ≠ 0 := fun h h0 => by
    obtain ⟨c, cs, rfl⟩ := List.exists_cons_of_ne_nil hne
    simp only [hds, List.getLast_reverse, List.head_map, List.head_cons] at h0
    apply hz
    rw [List.head?_cons, ← digitChar_toNat_sub (hd c (List.mem_cons_self _ _)), h0]
    rfl
  have hdig := Nat.digits_ofDigits 10 (by omega) ds hlt hlast
  have hpos : Nat.ofDigits 10 ds ≠ 0 := fun h0 => by
    have : ds ≠ [] := by simpa [hds] using hne
    exact this (by rw [← hdig, h0, Nat.digits_zero])
  rw [← ho, decimalValue_digits hlt, pyStr, if_neg hpos, hdig]

/-! ## 2. `IPv4Address` -/

/-- `IPv4Address._parse_octet` -/
def parseOctet (octet : List Char) : Option Nat :=
  if octet.isEmpty then none
  else if !octet.all Char.isDigit then none
  else if 3 < octet.length then none
  else if octet ≠ ['0'] ∧ octet.head? = some '0' then none
  else if 255 < decimalValue octet then none
  else some (decimalValue octet)

/-- `IPv4Address._ip_int_from_string` -/
def ipv4IntFromString (ipStr : List Char) : Option Nat :=
  if ipStr.isEmpty then none
  else
    let octets := split '.' ipStr
    if octets.length ≠ 4 then none
    else (octets.mapM parseOctet).map fun bytes => bytes.foldl (fun n b => 256 * n + b) 0

/-- `IPv4Address(address)._ip` for a text `address`. -/
def ipv4Address (address : List Char) : Option Nat :=
  if '/' ∈ address then none else ipv4IntFromString address

/-- `self._ip.to_bytes(4, 'big')` -/
def ipv4Bytes (ip : Nat) : List Nat :=
  [ip / 16777216 % 256, ip / 65536 % 256, ip / 256 % 256, ip % 256]

/-- `str(IPv4Address(ip))`: `'.'.join(map(str, ip.to_bytes(4, 'big')))`. -/
def ipv4String (ip : Nat) : List Char :=
  ['.'].intercalate ((ipv4Bytes ip).map pyStr)

theorem parseOctet_pyStr {n : Nat} (h : n < 256) : parseOctet (pyStr n) = some n := by
  obtain ⟨hdig, hval, hne, hzero, hlen⟩ := pyStr_spec n
  have hall : (pyStr n).all Char.isDigit = true := List.all_eq_true.mpr hdig
  have hlead : ¬(pyStr n ≠ ['0'] ∧ (pyStr n).head? = some '0') := by tauto
  have h3 : ¬3 < (pyStr n).length := by have := hlen (by omega); omega
  have h255 : ¬255 < n := by omega
  simp only [parseOctet, List.isEmpty_iff, hne, hall, hlead, h3, hval, h255, if_false,
    Bool.not_true, Bool.false_eq_true]

theorem not_mem_ipv4String {c : Char} (hc : c.isDigit = false) (hdot : c ≠ '.') (ip : Nat) :
    c ∉ ipv4String ip := by
  simp only [ipv4String, ipv4Bytes, List.map_cons, List.map_nil, List.intercalate, List.flatten_cons,
    List.flatten_nil, List.intersperse, List.mem_append, List.mem_singleton, not_or]
  simp [not_mem_pyStr hc, hdot]

theorem ipv4String_ne_nil (ip : Nat) : ipv4String ip ≠ [] := by
  simp [ipv4String, ipv4Bytes, List.intercalate, (pyStr_spec _).2.2.1]

/-- **The IPv4 round trip**: the text `str()` gives an IPv4 address parses back to it. -/
theorem ipv4Address_ipv4String {ip : Nat} (h : ip < 2 ^ 32) :
    ipv4Address (ipv4String ip) = some ip := by
  have hdot : ∀ n, '.' ∉ pyStr n := not_mem_pyStr (by decide)
  have hsplit : split '.' (ipv4String ip) = (ipv4Bytes ip).map pyStr := by
    simp only [ipv4String, ipv4Bytes, List.map_cons, List.map_nil, List.intercalate,
      List.intersperse, List.flatten_cons, List.flatten_nil, List.append_assoc,
      List.singleton_append, List.append_nil]
    rw [split_append (hdot _), split_append (hdot _), split_append (hdot _), split_of_not_mem (hdot _)]
  simp only [ipv4Address, not_mem_ipv4String (c := '/') (by decide) (by decide), if_false,
    ipv4IntFromString, List.isEmpty_iff, ipv4String_ne_nil, hsplit]
  simp only [ipv4Bytes, List.map_cons, List.map_nil, List.length_cons, List.length_nil,
    List.mapM_cons, List.mapM_nil, parseOctet_pyStr (Nat.mod_lt _ (by omega : 0 < 256))]
  simp only [ne_eq, not_true_eq_false, if_false]
  show some _ = some ip
  simp only [List.foldl_cons, List.foldl_nil, Option.some.injEq]
  omega

/-- `_parse_octet` accepts exactly the texts `str()` gives a byte. -/
theorem parseOctet_eq_some {o : List Char} {n : Nat} (h : parseOctet o = some n) :
    n < 256 ∧ o = pyStr n := by
  simp only [parseOctet, Option.ite_none_left_eq_some, Option.some.injEq] at h
  obtain ⟨h1, h2, -, h4, h5, rfl⟩ := h
  refine ⟨by omega, (pyStr_decimalValue (by simpa using h2) (by simpa using h1) ?_).symm⟩
  tauto

theorem mapM_parseOctet : ∀ {os : List (List Char)} {bs : List Nat},
    os.mapM parseOctet = some bs → (∀ b ∈ bs, b < 256) ∧ os = bs.map pyStr
  | [], bs, h => by
    obtain rfl : [] = bs := Option.some.inj h
    simp
  | o :: os, bs, h => by
    simp only [List.mapM_cons, Option.bind_eq_bind, Option.bind_eq_some, Option.pure_def,
      Option.some.injEq] at h
    obtain ⟨n, hn, ns, hns, rfl⟩ := h
    obtain ⟨hlt, rfl⟩ := parseOctet_eq_some hn
    obtain ⟨hlts, rfl⟩ := mapM_parseOctet hns
    exact ⟨by simpa [hlt] using hlts, rfl⟩

/-- The low byte of `256 * x + b`, and what stands above it. -/
theorem mul_add_div_mod_256 {x b : Nat} (hb : b < 256) :
    (256 * x + b) / 256 = x ∧ (256 * x + b) % 256 = b :=
  ⟨by rw [Nat.mul_add_div (by omega), Nat.div_eq_of_lt hb, Nat.add_zero],
    by rw [Nat.mul_add_mod, Nat.mod_eq_of_lt hb]⟩

/-- A text `IPv4Address` accepts is the text `str()` gives the address it reads. -/
theorem ipv4Address_eq_some {s : List Char} {ip : Nat} (h : ipv4Address s = some ip) :
    ip < 2 ^ 32 ∧ s = ipv4String ip := by
  simp only [ipv4Address, ipv4IntFromString, Option.ite_none_left_eq_some] at h
  obtain ⟨-, -, h3, h⟩ := h
  obtain ⟨bs, hbs, rfl⟩ := Option.map_eq_some'.mp h
  obtain ⟨hlt, hos⟩ := mapM_parseOctet hbs
  have hlen : bs.length = 4 := by simpa [hos] using h3
  obtain ⟨b₀, b₁, b₂, b₃, rfl⟩ : ∃ b₀ b₁ b₂ b₃, bs = [b₀, b₁, b₂, b₃] := by
    rcases bs with _ | ⟨b₀, _ | ⟨b₁, _ | ⟨b₂, _ | ⟨b₃, _ | ⟨b₄, bs⟩⟩⟩⟩⟩ <;> simp at hlen
    exact ⟨b₀, b₁, b₂, b₃, rfl⟩
  simp only [List.mem_cons, List.mem_singleton, List.not_mem_nil, or_false, forall_eq_or_imp,
    forall_eq] at hlt
  simp only [List.foldl_cons, List.foldl_nil, Nat.mul_zero, Nat.zero_add]
  refine ⟨by omega, ?_⟩
  have hb : ipv4Bytes (256 * (256 * (256 * b₀ + b₁) + b₂) + b₃) = [b₀, b₁, b₂, b₃] := by
    obtain ⟨d₃, m₃⟩ := mul_add_div_mod_256 (x := 256 * (256 * b₀ + b₁) + b₂) hlt.2.2.2
    obtain ⟨d₂, m₂⟩ := mul_add_div_mod_256 (x := 256 * b₀ + b₁) hlt.2.2.1
    obtain ⟨d₁, m₁⟩ := mul_add_div_mod_256 (x := b₀) hlt.2.1
    rw [ipv4Bytes, show 16777216 = 256 * 256 * 256 from rfl, show 65536 = 256 * 256 from rfl,
      ← Nat.div_div_eq_div_mul, ← Nat.div_div_eq_div_mul, d₃, d₂, d₁, m₃, m₂, m₁,
      Nat.mod_eq_of_lt hlt.1]
  rw [← intercalate_split '.' s, hos, ipv4String, hb]

/-! ## 3. `IPv6Address` -/

/-- The value of one of `_HEX_DIGITS`. -/
def hexDigitValue (c : Char) : Option Nat :=
  if c.isDigit then some (c.toNat - '0'.toNat)
  else if 'a' ≤ c ∧ c ≤ 'f' then some (c.toNat - 'a'.toNat + 10)
  else if 'A' ≤ c ∧ c ≤ 'F' then some (c.toNat - 'A'.toNat + 10)
  else none

/-- `IPv6Address._parse_hextet`: only hex digits, at most four, and `int('', 16)` raises. -/
def parseHextet (hextet : List Char) : Option Nat := do
  let digits ← hextet.mapM hexDigitValue
  if 4 < hextet.length ∨ digits.isEmpty then none
  else some (digits.foldl (fun n d => 16 * n + d) 0)

/-- `'%x' % n` -/
def hexString (n : Nat) : List Char := Nat.toDigits 16 n

/-- The first step of `IPv6Address._ip_int_from_string` after the count of parts: an IPv4-style
last part becomes two hextets. -/
def convertIpv4Suffix (parts : List (List Char)) : Option (List (List Char)) :=
  if '.' ∈ parts.getLastD [] then
    (ipv4Address (parts.getLastD [])).map fun ipv4Int =>
      parts.dropLast ++ [hexString (ipv4Int / 65536 % 65536), hexString (ipv4Int % 65536)]
  else some parts

/-- `skip_index`: the one empty part strictly inside, where `::` skips a run of zero hextets;
`none` — "At most one '::' permitted" — for two. -/
def skipIndex (parts : List (List Char)) : Option (Option Nat) :=
  match (List.range parts.length).filter fun i =>
      0 < i && i + 1 < parts.length && (parts.getD i []).isEmpty with
  | [] => some none
  | [i] => some (some i)
  | _ => none

/-- `parts_hi`, `parts_lo` and `parts_skipped`, with the checks on a leading or trailing `:`. -/
def hextetCounts (parts : List (List Char)) : Option Nat → Option (Nat × Nat × Nat)
  | some skip =>
    let leading := (parts.headD []).isEmpty
    let trailing := (parts.getLastD []).isEmpty
    let partsHi := if leading then skip - 1 else skip
    let partsLo := if trailing then parts.length - skip - 2 else parts.length - skip - 1
    if leading ∧ partsHi ≠ 0 then none
    else if trailing ∧ partsLo ≠ 0 then none
    else if 8 ≤ partsHi + partsLo then none
    else some (partsHi, partsLo, 8 - (partsHi + partsLo))
  | none =>
    if parts.length ≠ 8 then none
    else if (parts.headD []).isEmpty ∨ (parts.getLastD []).isEmpty then none
    else some (parts.length, 0, 0)

/-- `IPv6Address._ip_int_from_string` -/
def ipv6IntFromString (ipStr : List Char) : Option Nat :=
  if ipStr.isEmpty then none
  else
    let parts := split ':' ipStr
    if parts.length < 3 then none
    else do
      let parts ← convertIpv4Suffix parts
      if 9 < parts.length then none
      else do
        let (partsHi, partsLo, partsSkipped) ← hextetCounts parts (← skipIndex parts)
        let hi ← (parts.take partsHi).mapM parseHextet
        let lo ← (parts.drop (parts.length - partsLo)).mapM parseHextet
        pure ((hi ++ List.replicate partsSkipped 0 ++ lo).foldl (fun n h => 65536 * n + h) 0)

/-- `IPv6Address._split_scope_id`: the text before the first `%`, and the scope after it. -/
def splitScopeId (ipStr : List Char) : Option (List Char × Option (List Char)) :=
  match ipStr.span (· != '%') with
  | (addr, []) => some (addr, none)
  | (addr, _ :: scopeId) =>
    if scopeId.isEmpty ∨ '%' ∈ scopeId then none else some (addr, some scopeId)

/-- `IPv6Address(address)` for a text `address`: its value and scope. -/
def ipv6Address (address : List Char) : Option (Nat × Option (List Char)) :=
  if '/' ∈ address then none
  else do
    let (addr, scopeId) ← splitScopeId address
    let ip ← ipv6IntFromString addr
    pure (ip, scopeId)

/-! ## 4. `ip_address` -/

/-- An `IPv4Address` or an `IPv6Address`; equal exactly when Python's `==` says so. -/
inductive IPAddress
  | v4 (ip : Nat)
  | v6 (ip : Nat) (scopeId : Option (List Char))
  deriving DecidableEq, Repr

/-- The `ValueError` of `ip_address`. -/
def notAnAddress (address : List Char) : String :=
  String.mk (pyRepr address ++ " does not appear to be an IPv4 or IPv6 address".toList)

/-- `ip_address(address)`; the error is the `ValueError`'s message. -/
def ipAddress (address : List Char) : Except String IPAddress :=
  match ipv4Address address with
  | some ip => .ok (.v4 ip)
  | none =>
    match ipv6Address address with
    | some (ip, scopeId) => .ok (.v6 ip scopeId)
    | none => .error (notAnAddress address)

/-- `ip.is_loopback`: `127.0.0.0/8`, or `::1`. -/
def IPAddress.isLoopback : IPAddress → Bool
  | .v4 ip => ip / 16777216 = 127
  | .v6 ip _ => ip = 1

theorem ipAddress_ipv4String {ip : Nat} (h : ip < 2 ^ 32) :
    ipAddress (ipv4String ip) = .ok (.v4 ip) := by
  simp only [ipAddress, ipv4Address_ipv4String h]

/-- `ip_address` gives an `IPv4Address` exactly when `IPv4Address` accepts the text. -/
theorem ipAddress_eq_v4 {s : List Char} {ip : Nat} :
    ipAddress s = .ok (.v4 ip) ↔ ipv4Address s = some ip := by
  rcases h4 : ipv4Address s with _ | n
  · rcases h6 : ipv6Address s with _ | ⟨n, sc⟩ <;> simp [ipAddress, h4, h6]
  · simp [ipAddress, h4]

/-! ## 5. The exploded form of an IPv6 address -/

/-- `'%04x' % n` for a hextet: four lower-case hex digits, zero-padded. -/
def hextet4 (n : Nat) : List Char :=
  [n / 4096 % 16, n / 256 % 16, n / 16 % 16, n % 16].map Nat.digitChar

/-- The eight hextets of a 128-bit address, most significant first. -/
def ipv6Hextets (ip : Nat) : List Nat :=
  [ip / 2 ^ 112 % 65536, ip / 2 ^ 96 % 65536, ip / 2 ^ 80 % 65536, ip / 2 ^ 64 % 65536,
    ip / 2 ^ 48 % 65536, ip / 2 ^ 32 % 65536, ip / 65536 % 65536, ip % 65536]

/-- `IPv6Address(ip).exploded`: `'%032x' % ip` in eight groups of four hex digits, joined by
`:`. -/
def ipv6Exploded (ip : Nat) : List Char :=
  [':'].intercalate ((ipv6Hextets ip).map hextet4)

theorem hexDigitValue_digitChar : ∀ d < 16, hexDigitValue (Nat.digitChar d) = some d := by
  decide

/-- One digit in base `k` of `x / a` and what stands above it, for `b = a * k`. -/
theorem mul_div_add_mod_div {x a b k : Nat} (h : b = a * k) : k * (x / b) + x / a % k = x / a := by
  rw [h, ← Nat.div_div_eq_div_mul, Nat.div_add_mod]

theorem parseHextet_hextet4 {n : Nat} (h : n < 65536) : parseHextet (hextet4 n) = some n := by
  simp only [parseHextet, hextet4, List.map_cons, List.map_nil, List.mapM_cons, List.mapM_nil,
    hexDigitValue_digitChar _ (Nat.mod_lt _ (by omega : 0 < 16)), Option.pure_def,
    Option.bind_eq_bind, Option.some_bind]
  rw [if_neg (by simp), Nat.mod_eq_of_lt (Nat.div_lt_of_lt_mul (h.trans_eq rfl))]
  simp only [List.foldl_cons, List.foldl_nil, Nat.mul_zero, Nat.zero_add]
  rw [mul_div_add_mod_div (b := 4096) (a := 256) rfl, mul_div_add_mod_div (b := 256) (a := 16) rfl,
    Nat.div_add_mod]

theorem not_mem_hextet4 {c : Char} (hc : hexDigitValue c = none) (n : Nat) : c ∉ hextet4 n := by
  simp only [hextet4, List.mem_map, List.mem_cons, List.mem_singleton, List.not_mem_nil, or_false]
  rintro ⟨d, hd, rfl⟩
  have : d < 16 := by rcases hd with rfl | rfl | rfl | rfl <;> exact Nat.mod_lt _ (by omega)
  rw [hexDigitValue_digitChar d this] at hc
  cases hc

theorem hextet4_ne_nil (n : Nat) : hextet4 n ≠ [] := by simp [hextet4]

/-- Reading the hextets back, big-endian, gives the address. -/
theorem foldl_ipv6Hextets {ip : Nat} (h : ip < 2 ^ 128) :
    (ipv6Hextets ip).foldl (fun n h => 65536 * n + h) 0 = ip := by
  have h7 : ip / 2 ^ 112 < 65536 := Nat.div_lt_of_lt_mul (h.trans_eq rfl)
  simp only [ipv6Hextets, List.foldl_cons, List.foldl_nil, Nat.mul_zero, Nat.zero_add,
    Nat.mod_eq_of_lt h7]
  rw [mul_div_add_mod_div (b := 2 ^ 112) (a := 2 ^ 96) rfl,
    mul_div_add_mod_div (b := 2 ^ 96) (a := 2 ^ 80) rfl,
    mul_div_add_mod_div (b := 2 ^ 80) (a := 2 ^ 64) rfl,
    mul_div_add_mod_div (b := 2 ^ 64) (a := 2 ^ 48) rfl,
    mul_div_add_mod_div (b := 2 ^ 48) (a := 2 ^ 32) rfl,
    mul_div_add_mod_div (b := 2 ^ 32) (a := 65536) rfl, Nat.div_add_mod]

/-- The parts of a text of hextets joined by `:` are the hextets. -/
theorem split_intercalate_hextet4 : ∀ {ns : List Nat}, ns ≠ [] →
    split ':' ([':'].intercalate (ns.map hextet4)) = ns.map hextet4
  | [n], _ => split_of_not_mem (not_mem_hextet4 (by decide) n)
  | n :: m :: ns, _ => by
    rw [List.map_cons, List.map_cons, intercalate_cons_cons,
      split_append (not_mem_hextet4 (by decide) n), ← List.map_cons,
      split_intercalate_hextet4 (List.cons_ne_nil _ _), List.map_cons]

theorem not_mem_intercalate_hextet4 {c : Char} (hc : hexDigitValue c = none) (hcolon : c ≠ ':') :
    ∀ ns : List Nat, c ∉ [':'].intercalate (ns.map hextet4)
  | [] => List.not_mem_nil c
  | [n] => by simpa [List.intercalate] using not_mem_hextet4 hc n
  | n :: m :: ns => by
    rw [List.map_cons, List.map_cons, intercalate_cons_cons, ← List.map_cons]
    simp only [List.mem_append, List.mem_cons, not_or]
    exact ⟨not_mem_hextet4 hc n, hcolon, not_mem_intercalate_hextet4 hc hcolon (m :: ns)⟩

theorem mapM_parseHextet : ∀ {ns : List Nat}, (∀ n ∈ ns, n < 65536) →
    (ns.map hextet4).mapM parseHextet = some ns
  | [], _ => rfl
  | n :: ns, h => by
    simp only [List.map_cons, List.mapM_cons, parseHextet_hextet4 (h n (List.mem_cons_self _ _)),
      mapM_parseHextet fun m hm => h m (List.mem_cons_of_mem _ hm)]
    rfl

/-- What `IPv6Address` makes of between three and nine hextets joined by `:`, with no `::` and no
IPv4 part: their value when there are eight of them, nothing otherwise. -/
theorem ipv6IntFromString_intercalate {ns : List Nat} (h3 : 3 ≤ ns.length) (h9 : ns.length ≤ 9)
    (hlt : ∀ n ∈ ns, n < 65536) :
    ipv6IntFromString ([':'].intercalate (ns.map hextet4)) =
      if ns.length = 8 then some (ns.foldl (fun n h => 65536 * n + h) 0) else none := by
  have hns : ns ≠ [] := List.ne_nil_of_length_pos (by omega)
  have hne : ∀ p ∈ ns.map hextet4, p ≠ [] := by
    simp only [List.mem_map]
    rintro p ⟨n, -, rfl⟩
    exact hextet4_ne_nil n
  have hlast : ns.map hextet4 ≠ [] → (ns.map hextet4).getLastD [] ∈ ns.map hextet4 := fun h => by
    rw [List.getLastD_eq_getLast?, List.getLast?_eq_getLast _ h]
    exact List.getLast_mem h
  have hmap : ns.map hextet4 ≠ [] := by simpa using hns
  have hemp : ([':'].intercalate (ns.map hextet4)).isEmpty = false := by
    obtain ⟨n, ns', rfl⟩ := List.exists_cons_of_ne_nil hns
    cases ns' <;> simp [List.intercalate, hextet4_ne_nil]
  have hconv : convertIpv4Suffix (ns.map hextet4) = some (ns.map hextet4) := by
    have : '.' ∉ (ns.map hextet4).getLastD [] := by
      obtain ⟨n, -, hn⟩ := List.mem_map.mp (hlast hmap)
      exact hn ▸ not_mem_hextet4 (by decide) n
    rw [convertIpv4Suffix, if_neg this]
  have hskip : skipIndex (ns.map hextet4) = some none := by
    rw [skipIndex, List.filter_eq_nil_iff.mpr]
    intro i hi
    have hi : i < ns.length := by simpa using List.mem_range.mp hi
    simp [List.getElem?_eq_getElem hi, hextet4_ne_nil]
  have hhead : ((ns.map hextet4).headD []).isEmpty = false := by
    obtain ⟨n, ns', rfl⟩ := List.exists_cons_of_ne_nil hns
    simp [hextet4_ne_nil]
  have hlast' : ((ns.map hextet4).getLastD []).isEmpty = false := by
    simpa using hne _ (hlast hmap)
  have hlen : (ns.map hextet4).length = ns.length := List.length_map _ _
  simp only [ipv6IntFromString, split_intercalate_hextet4 hns, hemp, hconv, hlen,
    Option.bind_eq_bind, Option.some_bind, hskip, if_false, Bool.false_eq_true]
  rw [if_neg (by omega), if_neg (by omega)]
  by_cases h8 : ns.length = 8
  · simp only [hextetCounts, hlen, h8, hhead, hlast', if_true, if_false, Bool.false_eq_true,
      ne_eq, not_true_eq_false, or_self, Option.some_bind]
    rw [List.take_of_length_le (by omega), mapM_parseHextet hlt, Nat.sub_zero,
      List.drop_of_length_le (by omega), List.mapM_nil]
    simp
  · simp [hextetCounts, hlen, h8]

theorem ipv4Address_of_not_mem {s : List Char} (h : '.' ∉ s) : ipv4Address s = none := by
  simp [ipv4Address, ipv4IntFromString, split_of_not_mem h]

/-- `ip_address` on between three and nine hextets joined by `:`: an IPv6 address when there are
eight, the `ValueError` otherwise. -/
theorem ipAddress_intercalate_hextet4 {ns : List Nat} (h3 : 3 ≤ ns.length) (h9 : ns.length ≤ 9)
    (hlt : ∀ n ∈ ns, n < 65536) :
    ipAddress ([':'].intercalate (ns.map hextet4)) =
      if ns.length = 8 then .ok (.v6 (ns.foldl (fun n h => 65536 * n + h) 0) none)
      else .error (notAnAddress ([':'].intercalate (ns.map hextet4))) := by
  have hspan : ([':'].intercalate (ns.map hextet4)).span (· != '%') =
      ([':'].intercalate (ns.map hextet4), []) := by
    have hp := not_mem_intercalate_hextet4 (c := '%') (by decide) (by decide) ns
    rw [List.span_eq_take_drop, List.takeWhile_eq_self_iff.mpr, List.dropWhile_eq_nil_iff.mpr] <;>
      exact fun c hc => bne_iff_ne.mpr fun he => hp (he ▸ hc)
  simp only [ipAddress, ipv4Address_of_not_mem (not_mem_intercalate_hextet4 (by decide) (by decide) ns),
    ipv6Address, if_neg (not_mem_intercalate_hextet4 (c := '/') (by decide) (by decide) ns),
    splitScopeId, hspan, ipv6IntFromString_intercalate h3 h9 hlt, Option.bind_eq_bind,
    Option.some_bind]
  split_ifs <;> rfl

/-- **The IPv6 round trip**: the exploded text of an IPv6 address parses back to it. -/
theorem ipAddress_ipv6Exploded {ip : Nat} (h : ip < 2 ^ 128) :
    ipAddress (ipv6Exploded ip) = .ok (.v6 ip none) := by
  have hlt : ∀ n ∈ ipv6Hextets ip, n < 65536 := by
    simp only [ipv6Hextets, List.mem_cons, List.mem_singleton, List.not_mem_nil, or_false]
    rintro n (rfl | rfl | rfl | rfl | rfl | rfl | rfl | rfl) <;> exact Nat.mod_lt _ (by omega)
  have hlen : (ipv6Hextets ip).length = 8 := rfl
  rw [ipv6Exploded, ipAddress_intercalate_hextet4 (by omega) (by omega) hlt, if_pos hlen,
    foldl_ipv6Hextets h]

end Network
end Autodist
