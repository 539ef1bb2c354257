import OrbitCache.Controller.Agreement
import OrbitCache.Controller.Text
import OrbitCache.Host.Reporting
import OrbitCache.Lib.Framing

/-!
# Hot-key reports on the wire

A server worker sends `struct report_hdr` records over a TCP connection and `handle_client` reads
them back with Python's `struct`. `handleClient_reports`: whatever pieces `recv` cuts the stream
into, the controller stores the reports that were sent, in order, and of a stream that ends early
those whose record is complete.
-/

namespace OrbitCache

/-- `struct report_hdr` as it is sent, filled by `strncpy`: 16 bytes of key, padded with zeros, and
the popularity in the order of the host. -/
def reportHdr (report : Bytes × BitVec 32) : Bytes :=
  (keyField report.1).toList ++ Endian.bytes 4 report.2.toNat

namespace Controller

/-- `struct.unpack('16sI', data)`, in the byte order of a little-endian machine, with the decoding
of the key; both raise where there is no result. -/
def unpackReport (data : Bytes) : Option (Str × Nat) :=
  if data.length = keySize + 4 then do
    let key ← utf8Decode (data.take keySize)
    pure (rstrip key, Endian.little (data.drop keySize))
  else none

/-- `handle_client`: the assignments to `unCachedKeyPopularity` it makes for a connection, in order.
`picks` is how many bytes each `recv` finds, of the stream the peer sent before it closed. -/
def handleClient (picks : Nat → Nat) (stream : Bytes) : List (Str × Nat) :=
  Framing.records unpackReport (show 0 < keySize + 4 by decide) picks 0 stream

/-- A report on an ASCII key that fits its field, as all keys of items are. -/
structure HotKeyReport where
  key : Bytes
  popularity : BitVec 32
  length_key : key.length < keySize
  /-- The terminator is not part of a C string. -/
  ascii : ∀ b ∈ key, 0 < b.toNat ∧ b.toNat < 128

namespace HotKeyReport

/-- The record of the report, of 20 bytes. -/
def packed (report : HotKeyReport) : Bytes := reportHdr (report.key, report.popularity)

/-- The report as the controller stores it: a Python string and an integer. -/
def decoded (report : HotKeyReport) : Str × Nat :=
  (report.key.map asciiChar, report.popularity.toNat)

/-- The report of a worker on an item, with the key that `tostring_key` made. -/
def ofItem (n : BitVec 64) (popularity : BitVec 32) : HotKeyReport where
  key := OrbitCache.tostringKey n
  popularity := popularity
  length_key := by simp
  ascii _ := mem_tostringKey

/-- No byte of the key is the terminator. -/
theorem nul_notMem (report : HotKeyReport) : 0 ∉ report.key := fun hmem =>
  Nat.lt_irrefl 0 (report.ascii 0 hmem).1

/-- All records have the same length, which is what the controller receives by. -/
theorem length_packed (report : HotKeyReport) : report.packed.length = keySize + 4 := by
  simp [packed, reportHdr]

/-- The two layouts of a report agree, and the padding of the key is stripped: the controller finds
the key and the popularity that were sent. -/
theorem unpackReport_packed (report : HotKeyReport) :
    unpackReport report.packed = some report.decoded := by
  have hfield : (keyField report.key).toList.length = keySize := by simp
  have hle := Nat.le_of_lt report.length_key
  have hdecode : utf8Decode (keyField report.key).toList =
      some ((keyField report.key).toList.map asciiChar) :=
    utf8Decode_ascii (ascii_keyField hle fun b hb => (report.ascii b hb).2)
  have hpopularity : report.popularity.toNat % 256 ^ 4 = report.popularity.toNat :=
    Nat.mod_eq_of_lt report.popularity.isLt
  rw [unpackReport, if_pos report.length_packed, packed, reportHdr, List.take_left' hfield,
    List.drop_left' hfield, hdecode, Option.bind_eq_bind, Option.bind_some,
    rstrip_keyField hle report.nul_notMem, Endian.little_bytes, hpopularity]
  rfl

/-- The controller stores an item under its own name for the item, so the heap and the lookup table
are about the same keys. -/
theorem decoded_ofItem (n : BitVec 64) (popularity : BitVec 32) :
    (ofItem n popularity).decoded = (tostringKey n.toNat, popularity.toNat) := by
  refine Prod.ext (List.map_injective_iff.2 (fun _ _ => Char.toNat_inj.1) ?_) rfl
  rw [tostringKey_toNat, decoded, List.map_map]
  exact List.map_congr_left fun b _ => toNat_asciiChar b

end HotKeyReport

/-- The controller decodes the reports of a connection, and those that are complete of a connection
that ends early. How `recv` cuts the stream into pieces makes no difference, since the code reads on
until a record is complete. -/
theorem handleClient_reports (reports : List HotKeyReport) (picks : Nat → Nat) :
    handleClient picks (reports.flatMap HotKeyReport.packed) =
        reports.map HotKeyReport.decoded ∧
      ∀ cut, handleClient picks ((reports.flatMap HotKeyReport.packed).take cut) =
        (reports.take (cut / (keySize + 4))).map HotKeyReport.decoded := by
  have hlen : ∀ r ∈ reports, r.packed.length = keySize + 4 := fun r _ => r.length_packed
  have hunpack : ∀ r ∈ reports, unpackReport r.packed = some r.decoded := fun r _ =>
    r.unpackReport_packed
  exact ⟨Framing.records_flatMap (by decide) picks reports hlen hunpack 0,
    fun cut => Framing.records_take (by decide) picks reports hlen hunpack cut 0⟩

end Controller

end OrbitCache
