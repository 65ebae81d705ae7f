import BurrowState.Storage.PrefixIterator

/-!
# Key formats and the fields of keys

`storage.KeyFormat` is not in the repository; the spec fixes what the state relies on (§3, §6): a key is a tag and
fixed-width segments, the last one possibly variadic, which `Scan` recovers (a `MustKeyFormat` panics when it
cannot), and `Iterator` is the iteration of the tag's `Prefix`.  `blockRefKeyFormat` and `txKeyFormat` share the
tag `b`.  Keys of one format are injective in their fields (`accountKey_inj`, `storageKey_inj`, `nameKey_inj`).
-/

namespace BurrowState

/-! ### Fields -/

def addressLength : Nat := 20

def word256Length : Nat := 32

def tmhashSize : Nat := 32

def uint64Length : Nat := 8

abbrev Address := {b : Bytes // b.length = addressLength}

abbrev Word256 := {b : Bytes // b.length = word256Length}

def zero256 : Word256 := ⟨List.replicate word256Length 0, List.length_replicate _ _⟩

/-- `binary.LeftPadWord256`: zeros on the left up to 32 bytes; a longer string panics. -/
def leftPadWord256 (bz : Bytes) : Except GoError Word256 :=
  if h : bz.length ≤ word256Length then
    .ok ⟨List.replicate (word256Length - bz.length) 0 ++ bz, by simp; omega⟩
  else .error (.panic "runtime error: slice bounds out of range")

theorem leftPadWord256_word (w : Word256) : leftPadWord256 w.val = .ok w := by
  obtain ⟨w, hw⟩ := w
  simp [leftPadWord256, hw]

/-- Modelled from the spec: the 8-byte big-endian segment of a `uint64`, `byte(n >> 56), ..., byte(n)`. -/
def uint64BE (n : UInt64) : Bytes := (List.range 8).reverse.map fun i => (n >>> (8 * i).toUInt64).toUInt8

/-- Modelled from the spec: the `uint64` of a big-endian segment. -/
def getUint64BE (bs : Bytes) : UInt64 := (bs.foldl (fun (acc : Nat) (b : UInt8) => acc * 256 + b.toNat) 0).toUInt64

@[simp] theorem length_uint64BE (n : UInt64) : (uint64BE n).length = uint64Length := rfl

/-! ### Key formats -/

/-- Modelled from the spec: `storage.KeyFormat`, a tag and its segment widths (`0`, variadic, only last). -/
structure KeyFormat where
  tag : Bytes
  layout : List Nat

def variadicSegmentLength : Nat := 0

/-- The segments after a tag, by a layout; `none` unless the widths use up the bytes exactly. -/
def splitSegments : List Nat → Bytes → Option (List Bytes)
  | [], [] => some []
  | [], _ :: _ => none
  | 0 :: _, rest => some [rest]
  | (n + 1) :: layout, bs =>
    if n + 1 ≤ bs.length then (bs.take (n + 1) :: ·) <$> splitSegments layout (bs.drop (n + 1)) else none

namespace KeyFormat

/-- Modelled from the spec: `KeyFormat.Key`, the tag followed by the segments. -/
def key (kf : KeyFormat) (segments : List Bytes) : Bytes := kf.tag ++ segments.flatten

/-- Modelled from the spec: `KeyFormat.Suffix`, a key without its tag. -/
def suffix (_kf : KeyFormat) (segments : List Bytes) : Bytes := segments.flatten

/-- Modelled from the spec: `KeyFormat.Fix`, the format of the keys whose first segments are the given ones. -/
def fix (kf : KeyFormat) (segments : List Bytes) : KeyFormat := ⟨kf.key segments, kf.layout.drop segments.length⟩

/-- Modelled from the spec: `KeyFormat.ScanBytes`, the segments of a key of the format. -/
def scanBytes (kf : KeyFormat) (key : Bytes) : Option (List Bytes) :=
  if kf.tag <+: key then splitSegments kf.layout (key.drop kf.tag.length) else none

/-- Modelled from the spec: `MustKeyFormat.Scan`, which panics on a key that does not scan. -/
def mustScan (kf : KeyFormat) (key : Bytes) : Except GoError (List Bytes) :=
  match kf.scanBytes key with
  | some segments => .ok segments
  | none => .error (.panic "KeyFormat.Scan: key does not match format")

/-- Modelled from the spec: `KeyFormat.Iterator`, the iteration of the tag's `Prefix`. -/
def iterator {σ : Type} [DBIterator σ] (kf : KeyFormat) (iteratorFn : Option Bytes → Option Bytes → σ)
    (start «end» : Option Bytes) : PrefixIterator σ :=
  Prefix.iterator (some kf.tag) iteratorFn start «end»

@[simp] theorem key_eq (kf : KeyFormat) (segments : List Bytes) : kf.key segments = kf.tag ++ segments.flatten := rfl

end KeyFormat

/-- `treePrefix`, `m`: the space of the versioned tree. -/
def treePrefix : Prefix := [0x6d]

/-- `refsPrefix`, `r`: the reference space. -/
def refsPrefix : Prefix := [0x72]

def accountKeyFormat : KeyFormat := ⟨[0x61], [addressLength]⟩

def storageKeyFormat : KeyFormat := ⟨[0x73], [addressLength, word256Length]⟩

def nameKeyFormat : KeyFormat := ⟨[0x6e], [variadicSegmentLength]⟩

def blockRefKeyFormat : KeyFormat := ⟨[0x62], [uint64Length]⟩

def txRefKeyFormat : KeyFormat := ⟨[0x74], [uint64Length, uint64Length]⟩

/-- `txKeyFormat`, the tag `b` of `blockRefKeyFormat` too. -/
def txKeyFormat : KeyFormat := ⟨[0x62], [tmhashSize]⟩

def commitKeyFormat : KeyFormat := ⟨[0x78], [tmhashSize]⟩

/-! ### Keys of the tree space -/

def accountKey (address : Address) : Bytes := accountKeyFormat.key [address.val]

def storageKey (address : Address) (key : Word256) : Bytes := storageKeyFormat.key [address.val, key.val]

def nameKey (name : Bytes) : Bytes := nameKeyFormat.key [name]

theorem accountKey_inj {a b : Address} : accountKey a = accountKey b ↔ a = b := by
  simp [accountKey, Subtype.ext_iff]

theorem storageKey_inj {a b : Address} {k l : Word256} : storageKey a k = storageKey b l ↔ a = b ∧ k = l := by
  constructor
  · intro h
    have h' : a.val ++ k.val = b.val ++ l.val := by simpa [storageKey] using h
    obtain ⟨h₁, h₂⟩ := List.append_inj h' (by rw [a.2, b.2])
    exact ⟨Subtype.ext h₁, Subtype.ext h₂⟩
  · rintro ⟨rfl, rfl⟩
    rfl

theorem nameKey_inj {n m : Bytes} : nameKey n = nameKey m ↔ n = m := by
  simp [nameKey]

/-- A key of the tree space: an account, a storage slot or a name entry. -/
inductive TreeKey where
  | account (address : Address)
  | storage (address : Address) (key : Word256)
  | name (name : Bytes)
  deriving DecidableEq

def TreeKey.bytes : TreeKey → Bytes
  | .account address => accountKey address
  | .storage address key => storageKey address key
  | .name n => nameKey n

/-- The tree key that a byte string is, by its tag and its length. -/
def decodeTreeKey : Bytes → Option TreeKey
  | [] => none
  | t :: rest =>
    if h : t = 0x61 ∧ rest.length = addressLength then some (.account ⟨rest, h.2⟩)
    else if h : t = 0x73 ∧ rest.length = addressLength + word256Length then
      some (.storage ⟨rest.take addressLength, by simp [h.2, addressLength]⟩
        ⟨rest.drop addressLength, by simp [h.2, addressLength]⟩)
    else if t = 0x6e then some (.name rest)
    else none

theorem decodeTreeKey_bytes (tk : TreeKey) : decodeTreeKey tk.bytes = some tk := by
  cases tk with
  | account a => simp [TreeKey.bytes, accountKey, accountKeyFormat, decodeTreeKey, a.2]
  | storage a k =>
    have ha : (a.val ++ k.val).take addressLength = a.val := List.take_left' a.2
    have hk : (a.val ++ k.val).drop addressLength = k.val := List.drop_left' a.2
    simp [TreeKey.bytes, storageKey, storageKeyFormat, decodeTreeKey, a.2, k.2, ha, hk]
  | name n => simp [TreeKey.bytes, nameKey, nameKeyFormat, decodeTreeKey]

theorem bytes_of_decodeTreeKey {k : Bytes} {tk : TreeKey} (h : decodeTreeKey k = some tk) : tk.bytes = k := by
  match k with
  | [] => cases h
  | t :: rest =>
    simp only [decodeTreeKey] at h
    split_ifs at h with ha hs hn <;> cases h
    · simp [TreeKey.bytes, accountKey, accountKeyFormat, ha.1]
    · simp [TreeKey.bytes, storageKey, storageKeyFormat, hs.1]
    · simp [TreeKey.bytes, nameKey, nameKeyFormat, hn]

private theorem TreeKey.bytes_inj {tk tk' : TreeKey} : tk.bytes = tk'.bytes ↔ tk = tk' :=
  ⟨fun h => Option.some.inj ((decodeTreeKey_bytes tk).symm.trans (h ▸ decodeTreeKey_bytes tk')), congrArg _⟩

theorem TreeKey.bytes_eq_account {tk : TreeKey} {x : Bytes} (h : tk.bytes = accountKeyFormat.tag ++ x) :
    ∃ a, tk = .account a ∧ a.val = x := by
  cases tk with
  | account a => exact ⟨a, rfl, by simpa [TreeKey.bytes, accountKey, accountKeyFormat] using h⟩
  | _ => simp [TreeKey.bytes, storageKey, nameKey, accountKeyFormat, storageKeyFormat, nameKeyFormat] at h

theorem TreeKey.bytes_eq_storage {tk : TreeKey} {a : Address} {x : Bytes}
    (h : tk.bytes = (storageKeyFormat.fix [a.val]).tag ++ x) : ∃ k : Word256, tk = .storage a k ∧ k.val = x := by
  cases tk with
  | storage b k =>
    have h' : b.val ++ k.val = a.val ++ x := by simpa [TreeKey.bytes, storageKey, storageKeyFormat, KeyFormat.fix] using h
    obtain ⟨hb, hk⟩ := List.append_inj h' (by rw [a.2, b.2])
    exact ⟨k, by rw [Subtype.ext hb], hk⟩
  | _ => simp [TreeKey.bytes, accountKey, nameKey, accountKeyFormat, nameKeyFormat, KeyFormat.fix,
      storageKeyFormat] at h

theorem TreeKey.bytes_eq_name {tk : TreeKey} {x : Bytes} (h : tk.bytes = nameKeyFormat.tag ++ x) :
    tk = .name x := by
  cases tk with
  | name n => simpa [TreeKey.bytes, nameKey, nameKeyFormat] using h
  | _ => simp [TreeKey.bytes, accountKey, storageKey, accountKeyFormat, storageKeyFormat, nameKeyFormat] at h

private theorem decodeTreeKey_eq_some {k : Bytes} {tk : TreeKey} : decodeTreeKey k = some tk ↔ k = tk.bytes :=
  ⟨fun h => (bytes_of_decodeTreeKey h).symm, fun h => h ▸ decodeTreeKey_bytes tk⟩

end BurrowState
