import Autodist.Network.IpAddress
import Mathlib.Data.String.Basic

/-!
# `Autodist/Network/Address.lean` — `_get_ip_from_address` and the two address checks

`autodist/utils/network.py`, transliterated over `IpAddress.lean`. `_get_ip_from_address` splits
its argument at the last `:`, keeps the left part (or the whole text when there is no `:`), maps
`localhost` to `127.0.0.1`, strips brackets and hands the rest to `ip_address`.
`is_loopback_address` and `is_local_address` read its result; the interfaces `netifaces` reports
are an argument of `isLocalAddress`.

What the split does to each form of address:

* `getIpFromAddress_ipv4`: an IPv4 address, bare or with a port, reads as itself;
* `getIpFromAddress_bracketed`: `[text]:port` reads as `ip_address(text)` — for the text `str()`
  gives an IPv6 address, that address;
* `getIpFromAddress_colon`: a bare text with a `:` reads as what stands before its last `:`. Every
  IPv6 text has one, so a bare IPv6 address is cut: `::1` raises (`getIpFromAddress_bare_ipv6`),
  `1::2:3` reads as `1::2`;
* `getIpFromAddress_ipv6Exploded`: for every IPv6 address written in full, `[text]:port` reads as
  the address, and the bare text raises on its first seven hextets.
* `getIpFromAddress_hostname`: a host name is read as a text, and only `localhost` is mapped; any
  other name raises.

What `is_local_address` answers, when every address the interfaces report parses
(`isLocalAddress_of_parses`): whether one of them is the address read. Since `IPv4Address` accepts
only the texts `str()` gives, an address read as IPv4 is local exactly when that very text is
reported (`isLocalAddress_v4`); since only the `AF_INET` entries are collected, an address read as
IPv6 is never local (`isLocalAddress_v6`), the IPv6 loopback included.
-/

set_option autoImplicit false

namespace Autodist
namespace Network

/-! ## 1. The string methods -/

/-- `s.rpartition(sep)`: the text before the last `sep`, the separator, the text after it; or
`('', '', s)` when `sep` does not occur. -/
def rpartition (sep : Char) : List Char → List Char × List Char × List Char
  | [] => ([], [], [])
  | c :: cs =>
    let (head, found, tail) := rpartition sep cs
    if found.isEmpty then (if c = sep then ([], [sep], tail) else ([], [], c :: tail))
    else (c :: head, found, tail)

/-- `s.strip(chars)` -/
def strip (s chars : List Char) : List Char :=
  ((s.dropWhile chars.contains).reverse.dropWhile chars.contains).reverse

theorem rpartition_of_not_mem {sep : Char} : ∀ {s : List Char}, sep ∉ s →
    rpartition sep s = ([], [], s)
  | [], _ => rfl
  | c :: cs, h => by
    have hc : c ≠ sep := fun hc => h (hc ▸ List.mem_cons_self _ _)
    simp [rpartition, rpartition_of_not_mem fun h' => h (List.mem_cons_of_mem _ h'), hc]

theorem rpartition_append {sep : Char} {t : List Char} (ht : sep ∉ t) :
    ∀ (s : List Char), rpartition sep (s ++ sep :: t) = (s, [sep], t)
  | [] => by simp [rpartition, rpartition_of_not_mem ht]
  | c :: cs => by simp [rpartition, rpartition_append ht cs]

/-- `dropWhile` stops at once when the first character is not dropped. -/
theorem dropWhile_of_head {p : Char → Bool} :
    ∀ {l : List Char}, (∀ c ∈ l.head?, p c = false) → l.dropWhile p = l
  | [], _ => rfl
  | c :: l, h => by simp [List.dropWhile_cons, h c rfl]

/-- Stripping characters that do not occur in the text changes nothing. -/
theorem strip_of_disjoint {s chars : List Char} (h : ∀ c ∈ s, chars.contains c = false) :
    strip s chars = s := by
  have hs : ∀ c ∈ s.head?, chars.contains c = false := fun c hc => h c (List.mem_of_mem_head? hc)
  have hr : ∀ c ∈ s.reverse.head?, chars.contains c = false := fun c hc =>
    h c (List.mem_reverse.mp (List.mem_of_mem_head? hc))
  rw [strip, dropWhile_of_head hs, dropWhile_of_head hr, List.reverse_reverse]

/-- Stripping brackets around a text without brackets gives the text. -/
theorem strip_brackets {s : List Char} (h : ∀ c ∈ s, ['[', ']'].contains c = false) :
    strip ('[' :: s ++ [']']) ['[', ']'] = s := by
  have hs : ∀ c ∈ s.head?, ['[', ']'].contains c = false := fun c hc =>
    h c (List.mem_of_mem_head? hc)
  have hr : ∀ c ∈ s.reverse.head?, ['[', ']'].contains c = false := fun c hc =>
    h c (List.mem_reverse.mp (List.mem_of_mem_head? hc))
  cases s with
  | nil => rfl
  | cons c s =>
    have hfront : ('[' :: (c :: s ++ [']'])).dropWhile ['[', ']'].contains = c :: s ++ [']'] := by
      rw [List.dropWhile_cons, if_pos (by decide)]
      exact dropWhile_of_head (by simpa using hs)
    have hback : (']' :: (c :: s).reverse).dropWhile ['[', ']'].contains = (c :: s).reverse := by
      rw [List.dropWhile_cons, if_pos (by decide)]
      exact dropWhile_of_head hr
    rw [strip, List.cons_append, hfront, List.reverse_append, List.reverse_singleton,
      List.singleton_append, hback, List.reverse_reverse]

/-! ## 2. The functions of `network.py` -/

/-- `_get_ip_from_address(address)` -/
def getIpFromAddress (address : String) : Except String IPAddress :=
  let (ip, _, _) := rpartition ':' address.toList
  -- if there was no separation, ip will be empty so use original string
  let ip := if ip.isEmpty then address.toList else ip
  -- `ip_address` will throw an error if given localhost
  let ip := if ip = "localhost".toList then "127.0.0.1".toList else ip
  ipAddress (strip ip ['[', ']'])

/-- `is_loopback_address(address)` -/
def isLoopbackAddress (address : String) : Except String Bool :=
  (getIpFromAddress address).map IPAddress.isLoopback

/-- `is_local_address(address)`, given the `addr` of every `AF_INET` entry `netifaces` reports for
every interface (`None` where an interface has none). -/
def isLocalAddress (interfaceAddrs : List (Option String)) (address : String) :
    Except String Bool := do
  let ip ← getIpFromAddress address
  let addresses ← ((interfaceAddrs.filterMap id).filter (!·.isEmpty)).mapM (ipAddress ·.toList)
  pure (addresses.contains ip)

/-! ## 3. What each form of address reads as -/

@[simp] theorem string_mk_toList (l : List Char) : (String.mk l).toList = l := rfl

theorem localhost_ne_of_head {s : List Char} {c : Char} (hs : s.head? = some c) (hc : c ≠ 'l') :
    s ≠ "localhost".toList := by
  rintro rfl
  exact hc (Option.some.inj hs).symm

/-- A text without `:` is read whole. -/
theorem getIpFromAddress_of_not_mem {s : List Char} (h : ':' ∉ s) (hl : s ≠ "localhost".toList) :
    getIpFromAddress (String.mk s) = ipAddress (strip s ['[', ']']) := by
  simp only [getIpFromAddress, string_mk_toList, rpartition_of_not_mem h, List.isEmpty_nil,
    if_true, hl, if_false]

/-- **A text with a `:` is read up to its last `:`**, brackets stripped. -/
theorem getIpFromAddress_colon {s t : List Char} (hs : s ≠ []) (ht : ':' ∉ t)
    (hl : s ≠ "localhost".toList) :
    getIpFromAddress (String.mk (s ++ ':' :: t)) = ipAddress (strip s ['[', ']']) := by
  simp only [getIpFromAddress, string_mk_toList, rpartition_append ht, List.isEmpty_iff, hs, hl,
    if_false]

/-- **An IPv4 address reads as itself**, bare or followed by `:port`. -/
theorem getIpFromAddress_ipv4 {ip : Nat} (h : ip < 2 ^ 32) (port : Nat) :
    getIpFromAddress (String.mk (ipv4String ip)) = .ok (.v4 ip) ∧
    getIpFromAddress (String.mk (ipv4String ip ++ ':' :: pyStr port)) = .ok (.v4 ip) := by
  have hcolon := not_mem_ipv4String (c := ':') (by decide) (by decide) ip
  have hl : ipv4String ip ≠ "localhost".toList := fun he =>
    not_mem_ipv4String (c := 'l') (by decide) (by decide) ip (he ▸ by decide)
  have hstrip : strip (ipv4String ip) ['[', ']'] = ipv4String ip := strip_of_disjoint fun c hc => by
    have h1 := not_mem_ipv4String (c := '[') (by decide) (by decide) ip
    have h2 := not_mem_ipv4String (c := ']') (by decide) (by decide) ip
    simp only [List.contains_cons, List.contains_nil, Bool.or_false, Bool.or_eq_false_iff,
      beq_eq_false_iff_ne]
    exact ⟨fun he => h1 (he ▸ hc), fun he => h2 (he ▸ hc)⟩
  rw [getIpFromAddress_of_not_mem hcolon hl,
    getIpFromAddress_colon (ipv4String_ne_nil ip) (not_mem_pyStr (by decide) port) hl, hstrip]
  exact ⟨ipAddress_ipv4String h, ipAddress_ipv4String h⟩

/-- **A bracketed text with a port reads as the text**: `[text]:port` is `ip_address(text)`. -/
theorem getIpFromAddress_bracketed {s : List Char} (hs : ∀ c ∈ s, ['[', ']'].contains c = false)
    (port : Nat) :
    getIpFromAddress (String.mk (('[' :: s ++ [']']) ++ ':' :: pyStr port)) = ipAddress s := by
  have hl : ('[' :: s ++ [']']) ≠ "localhost".toList := localhost_ne_of_head rfl (by decide)
  rw [getIpFromAddress_colon (by simp) (not_mem_pyStr (by decide) port) hl, strip_brackets hs]

/-- **A bare IPv6 address is cut at its last `:`.** `::1` is the IPv6 loopback, yet
`_get_ip_from_address` hands `:` to `ip_address`, which raises, and so does `is_loopback_address`;
`1::2:3` silently reads as `1::2`. -/
theorem getIpFromAddress_bare_ipv6 :
    ipAddress "::1".toList = .ok (.v6 1 none) ∧
    getIpFromAddress "::1" = .error (notAnAddress [':']) ∧
    isLoopbackAddress "::1" = .error (notAnAddress [':']) ∧
    ipAddress "1::2:3".toList = .ok (.v6 (2 ^ 112 + 2 * 2 ^ 16 + 3) none) ∧
    getIpFromAddress "1::2:3" = .ok (.v6 (2 ^ 112 + 2) none) :=
  ⟨rfl, rfl, rfl, rfl, rfl⟩

/-- **Every IPv6 address, in full**: written exploded in brackets with a port, it reads as
itself, and `is_loopback_address` tells `::1` from the rest; written bare, it is cut at its last
`:` and `ip_address` raises on the first seven hextets. -/
theorem getIpFromAddress_ipv6Exploded {ip : Nat} (h : ip < 2 ^ 128) (port : Nat) :
    getIpFromAddress (String.mk (('[' :: ipv6Exploded ip ++ [']']) ++ ':' :: pyStr port)) =
      .ok (.v6 ip none) ∧
    isLoopbackAddress (String.mk (('[' :: ipv6Exploded ip ++ [']']) ++ ':' :: pyStr port)) =
      .ok (ip = 1) ∧
    getIpFromAddress (String.mk (ipv6Exploded ip)) =
      .error (notAnAddress ([':'].intercalate (((ipv6Hextets ip).take 7).map hextet4))) := by
  have hb : ∀ ns : List Nat, ∀ c ∈ [':'].intercalate (ns.map hextet4),
      ['[', ']'].contains c = false := fun ns c hc => by
    have h1 := not_mem_intercalate_hextet4 (c := '[') (by decide) (by decide) ns
    have h2 := not_mem_intercalate_hextet4 (c := ']') (by decide) (by decide) ns
    simp only [List.contains_cons, List.contains_nil, Bool.or_false, Bool.or_eq_false_iff,
      beq_eq_false_iff_ne]
    exact ⟨fun he => h1 (he ▸ hc), fun he => h2 (he ▸ hc)⟩
  have hround := getIpFromAddress_bracketed (hb (ipv6Hextets ip)) port
  rw [← ipv6Exploded, ipAddress_ipv6Exploded h] at hround
  -- the text before the last `:` holds the first seven hextets
  have hcut : ipv6Exploded ip = [':'].intercalate (((ipv6Hextets ip).take 7).map hextet4) ++
      ':' :: hextet4 (ip % 65536) := by
    simp [ipv6Exploded, ipv6Hextets, List.intercalate]
  have hlt : ∀ n ∈ (ipv6Hextets ip).take 7, n < 65536 := by
    simp only [ipv6Hextets, List.take, List.mem_cons, List.mem_singleton, List.not_mem_nil,
      or_false]
    rintro n (rfl | rfl | rfl | rfl | rfl | rfl | rfl) <;> exact Nat.mod_lt _ (by omega)
  have hlen : ((ipv6Hextets ip).take 7).length = 7 := rfl
  have hs := not_mem_intercalate_hextet4 (c := 'l') (by decide) (by decide) ((ipv6Hextets ip).take 7)
  refine ⟨hround, by simp only [isLoopbackAddress, hround]; rfl, ?_⟩
  rw [hcut, getIpFromAddress_colon ?_ (not_mem_hextet4 (by decide) _) ?_,
    strip_of_disjoint (hb _), ipAddress_intercalate_hextet4 (by omega) (by omega) hlt,
    if_neg (by omega)]
  · simp [ipv6Hextets, List.intercalate, hextet4_ne_nil]
  · exact fun he => hs (he ▸ by decide)

theorem getIpFromAddress_ipv6Exploded_loopback :
    1 < 2 ^ 128 ∧
    getIpFromAddress (String.mk (('[' :: ipv6Exploded 1 ++ [']']) ++ ':' :: pyStr 8080)) =
      .ok (.v6 1 none) ∧
    isLoopbackAddress (String.mk (('[' :: ipv6Exploded 1 ++ [']']) ++ ':' :: pyStr 8080)) =
      .ok (1 = 1) ∧
    getIpFromAddress (String.mk (ipv6Exploded 1)) =
      .error (notAnAddress ([':'].intercalate (((ipv6Hextets 1).take 7).map hextet4))) :=
  ⟨by norm_num, getIpFromAddress_ipv6Exploded (by norm_num) 8080⟩

/-! ## 4. `is_local_address` -/

theorem getIpFromAddress_v4_lt {address : String} {ip : Nat}
    (h : getIpFromAddress address = .ok (.v4 ip)) : ip < 2 ^ 32 := by
  unfold getIpFromAddress at h
  split at h
  exact (ipv4Address_eq_some (ipAddress_eq_v4.mp h)).1

/-- The loop over the reported addresses: when each parses, it collects what they read as. -/
theorem mapM_ipAddress : ∀ {l : List String}, (∀ t ∈ l, ∃ x, ipAddress t.toList = .ok x) →
    ∃ xs, l.mapM (ipAddress ·.toList) = .ok xs ∧ ∀ x, x ∈ xs ↔ ∃ t ∈ l, ipAddress t.toList = .ok x
  | [], _ => ⟨[], rfl, by simp⟩
  | t :: l, h => by
    obtain ⟨x, hx⟩ := h t (List.mem_cons_self _ _)
    obtain ⟨xs, hxs, hmem⟩ := mapM_ipAddress fun t ht => h t (List.mem_cons_of_mem _ ht)
    refine ⟨x :: xs, by simp only [List.mapM_cons, hx, hxs]; rfl, fun y => ?_⟩
    rw [List.mem_cons, hmem, List.exists_mem_cons_iff, hx, Except.ok.injEq, eq_comm]

/-- The texts the loop reads: the `addr` entries that are neither `None` nor empty. -/
theorem mem_reported {addrs : List (Option String)} {t : String} :
    t ∈ (addrs.filterMap id).filter (!·.isEmpty) ↔ some t ∈ addrs ∧ t ≠ "" := by
  simp only [List.mem_filter, List.mem_filterMap, id, exists_eq_right, Bool.not_eq_true',
    Bool.eq_false_iff, ne_eq, String.isEmpty_iff]

/-- `is_local_address` when every reported address parses: whether one of them reads as the
address `_get_ip_from_address` reads. -/
theorem isLocalAddress_of_parses {addrs : List (Option String)} {address : String} {ip : IPAddress}
    (hip : getIpFromAddress address = .ok ip)
    (hall : ∀ t, some t ∈ addrs → t ≠ "" → ∃ x, ipAddress t.toList = .ok x) :
    ∃ b, isLocalAddress addrs address = .ok b ∧
      (b = true ↔ ∃ t, some t ∈ addrs ∧ t ≠ "" ∧ ipAddress t.toList = .ok ip) := by
  obtain ⟨xs, hxs, hmem⟩ :=
    mapM_ipAddress fun t ht => hall t (mem_reported.mp ht).1 (mem_reported.mp ht).2
  refine ⟨xs.contains ip, by simp only [isLocalAddress, hip, hxs]; rfl, ?_⟩
  simp only [List.contains, List.elem_iff, hmem, mem_reported, and_assoc]

/-- **`is_local_address` of an address read as IPv4**: when every address the interfaces report
parses, it holds exactly when the interfaces report the text `str()` gives that address — whatever
form the argument had (`localhost`, a port, brackets). -/
theorem isLocalAddress_v4 {addrs : List (Option String)} {address : String} {ip : Nat}
    (hip : getIpFromAddress address = .ok (.v4 ip))
    (hall : ∀ t, some t ∈ addrs → t ≠ "" → ∃ x, ipAddress t.toList = .ok x) :
    isLocalAddress addrs address = .ok (decide (some (String.mk (ipv4String ip)) ∈ addrs)) := by
  obtain ⟨b, hb, hiff⟩ := isLocalAddress_of_parses hip hall
  have key : (∃ t, some t ∈ addrs ∧ t ≠ "" ∧ ipAddress t.toList = .ok (.v4 ip)) ↔
      some (String.mk (ipv4String ip)) ∈ addrs := by
    constructor
    · rintro ⟨⟨l⟩, ht, -, hp⟩
      rw [string_mk_toList] at hp
      rwa [(ipv4Address_eq_some (ipAddress_eq_v4.mp hp)).2] at ht
    · exact fun hm => ⟨_, hm, fun he => ipv4String_ne_nil ip (congrArg String.toList he),
        ipAddress_ipv4String (getIpFromAddress_v4_lt hip)⟩
  rw [hb, Bool.eq_iff_iff.mpr (hiff.trans (key.trans decide_eq_true_iff.symm))]

theorem isLocalAddress_v4_localhost :
    getIpFromAddress "localhost:8080" = .ok (.v4 2130706433) ∧
    (∀ t, some t ∈ [some "127.0.0.1", none, some ""] → t ≠ "" → ∃ x, ipAddress t.toList = .ok x) ∧
    isLocalAddress [some "127.0.0.1", none, some ""] "localhost:8080" =
      .ok (decide (some (String.mk (ipv4String 2130706433)) ∈ [some "127.0.0.1", none, some ""])) := by
  have hip : getIpFromAddress "localhost:8080" = .ok (.v4 2130706433) := rfl
  have hall : ∀ t, some t ∈ [some "127.0.0.1", none, some ""] → t ≠ "" →
      ∃ x, ipAddress t.toList = .ok x := by
    simp only [List.mem_cons, Option.some.injEq, reduceCtorEq, false_or, List.not_mem_nil, or_false]
    rintro t (rfl | rfl) h
    · exact ⟨_, rfl⟩
    · exact absurd rfl h
  exact ⟨hip, hall, isLocalAddress_v4 hip hall⟩

/-- **`is_local_address` never holds of an address read as IPv6** when every address the
interfaces report is an IPv4 address: it collects only the `AF_INET` entries, so the IPv6 loopback
`[::1]:port` is not local, though `is_loopback_address` holds of it. -/
theorem isLocalAddress_v6 {addrs : List (Option String)} {address : String} {ip : Nat}
    {scopeId : Option (List Char)} (hip : getIpFromAddress address = .ok (.v6 ip scopeId))
    (hv4 : ∀ t, some t ∈ addrs → t ≠ "" → ∃ n, ipv4Address t.toList = some n) :
    isLocalAddress addrs address = .ok false := by
  have hall : ∀ t, some t ∈ addrs → t ≠ "" → ∃ x, ipAddress t.toList = .ok x := fun t ht hne =>
    let ⟨n, hn⟩ := hv4 t ht hne; ⟨.v4 n, ipAddress_eq_v4.mpr hn⟩
  obtain ⟨b, hb, hiff⟩ := isLocalAddress_of_parses hip hall
  suffices b = false by rw [hb, this]
  rw [Bool.eq_false_iff]
  intro hb'
  obtain ⟨t, ht, hne, hp⟩ := hiff.mp hb'
  obtain ⟨n, hn⟩ := hv4 t ht hne
  rw [ipAddress_eq_v4.mpr hn] at hp
  cases hp

theorem isLocalAddress_v6_loopback :
    getIpFromAddress "[::1]:8080" = .ok (.v6 1 none) ∧
    (∀ t, some t ∈ [some "127.0.0.1"] → t ≠ "" → ∃ n, ipv4Address t.toList = some n) ∧
    isLocalAddress [some "127.0.0.1"] "[::1]:8080" = .ok false := by
  have hip : getIpFromAddress "[::1]:8080" = .ok (.v6 1 none) := rfl
  have hv4 : ∀ t, some t ∈ [some "127.0.0.1"] → t ≠ "" → ∃ n, ipv4Address t.toList = some n := by
    simp only [List.mem_singleton, Option.some.injEq]
    rintro t rfl -
    exact ⟨_, rfl⟩
  exact ⟨hip, hv4, isLocalAddress_v6 hip hv4⟩

end Network
end Autodist
