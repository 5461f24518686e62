import Rudurru.Reference
import Rudurru.Storage.Sorting

/-!
# Rudurru.Storage.Blob

The blob of a key serves three readers: the store's own one-pass parser, the protobuf library of
any client it is sent to, and the patch that puts another `mod_revision` into it. Each of them finds
every field where `encode_kv` has put it.
-/

namespace Rudurru

/-- **Both readers of a blob read back what was encoded.** -/
theorem encodeKv_faithful (key value : Bytes) (c m v l : Int64) (hkey : key.length < 2 ^ 32)
    (hvalue : value.length < 2 ^ 32) :
    parseKv (encodeKv key value c m v l).1 = some
        { key, createRevision := c.toUInt64, modRevision := m.toUInt64, version := v.toUInt64,
          value } ∧
      Reference.decode (encodeKv key value c m v l).1 = some
        { key, createRevision := c, modRevision := m, version := v, value, lease := l } :=
  ⟨parseKv_encodeKv c m v l hkey hvalue, Reference.decode_encodeKv hkey hvalue⟩

theorem encodeKv_faithful_minInt :
    parseKv (encodeKv [107] [118] (-1) Int64.minValue 2 (-3)).1 = some
        { key := [107], createRevision := (-1 : Int64).toUInt64,
          modRevision := Int64.minValue.toUInt64, version := (2 : Int64).toUInt64,
          value := [118] } ∧
      Reference.decode (encodeKv [107] [118] (-1) Int64.minValue 2 (-3)).1 = some
        { key := [107], createRevision := -1, modRevision := Int64.minValue, version := 2,
          value := [118], lease := -3 } :=
  encodeKv_faithful [107] [118] (-1) Int64.minValue 2 (-3) (by decide) (by decide)

/-- **Patching a blob in place is encoding it anew**, and stays within it. -/
theorem withModRevision_reencodes (key value : Bytes) (c m v l : Int64) (rev : UInt64)
    (hkey : key.length < 2 ^ 32) :
    (∃ offset, modRevisionFieldOffset (encodeKv key value c m v l).1 = some offset ∧
      offset + 10 ≤ (encodeKv key value c m v l).1.length) ∧
    withModRevision (encodeKv key value c m v l).1 rev
      = some (encodeKv key value c rev.toInt64 v l).1 := by
  refine ⟨⟨_, modRevisionFieldOffset_encodeKv hkey, ?_⟩, withModRevision_encodeKv rev hkey⟩
  simp only [encodeKv, List.length_append, length_encodeOverlongU64]
  omega

theorem withModRevision_reencodes_max :
    (∃ offset, modRevisionFieldOffset (encodeKv [107] [118] (-1) 5 2 (-3)).1 = some offset ∧
      offset + 10 ≤ (encodeKv [107] [118] (-1) 5 2 (-3)).1.length) ∧
    withModRevision (encodeKv [107] [118] (-1) 5 2 (-3)).1 (2 ^ 64 - 1)
      = some (encodeKv [107] [118] (-1) (2 ^ 64 - 1 : UInt64).toInt64 2 (-3)).1 :=
  withModRevision_reencodes [107] [118] (-1) 5 2 (-3) (2 ^ 64 - 1) (by decide)

end Rudurru
