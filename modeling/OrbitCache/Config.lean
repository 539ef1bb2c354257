/-!
# Constants

The operation codes, flags, sizes and base ports that `header.h` and `orbitcache.p4` define with the
same values. A constant that one program defines differently stands in that program's own module.
-/

namespace OrbitCache

/-! ## Operation types -/

/-- `OP_READ`: a client asks for the value of a key. -/
abbrev opRead : BitVec 8 := 0
/-- `OP_R_REPLY`: the reply to a READ or a CRCTN. On the recirculation port every cache packet is
one, whatever it was before. -/
abbrev opRReply : BitVec 8 := 1
/-- `OP_WRITE`: a client sends a new value. The switch makes the index of a cached key INVALID. -/
abbrev opWrite : BitVec 8 := 2
/-- `OP_W_REPLY`: the reply to a WRITE, with the value. The switch makes the index of a cached key
VALID and keeps a clone as its cache packet. -/
abbrev opWReply : BitVec 8 := 3
/-- `OP_CRCTN`: a client that got the item of another key with the same hash asks the server itself;
the switch only routes it. -/
abbrev opCrctn : BitVec 8 := 4
/-- `OP_FETCH`: the controller asks a server for an item that it has just installed. -/
abbrev opFetch : BitVec 8 := 5
/-- `OP_F_REPLY`: the reply to an `OP_FETCH`, which the switch treats like a W_REPLY. -/
abbrev opFReply : BitVec 8 := 6

/-! ## Header flags -/

/-- `flag` of a WRITE whose key the switch found cached, which tells the server to send the value
back, and of the replies that carry an item. -/
abbrev fetching : BitVec 8 := 1
/-- `flag` of a server's reply to a READ or a CRCTN, after which the client needs nothing more. -/
abbrev lastAck : BitVec 8 := 255
/-- `cached` of a READ the switch forwarded because the key's queue was full; the server copies the
mark to its reply, and the client counts it. -/
abbrev missed : BitVec 8 := 2

/-! ## Request table -/

/-- `MAX_QUEUE_SIZE_PER_KEY`: how many READs can be pending at one cache index. -/
abbrev maxQueueSizePerKey : Nat := 8
/-- `NUM_BITSHIFT`, with `2 ^ numBitshift = maxQueueSizePerKey`: the slots of an index start at the
index shifted by it. -/
abbrev numBitshift : Nat := 3
/-- `MAX_CACHE_SIZE`, the number of entries of the per-key registers. Below it the slots of
different indices do not overlap. -/
abbrev maxCacheSize : Nat := 8192

/-! ## Keys, values and partitions -/

/-- `KEY_SIZE`: the bytes of a key field, its terminator included. -/
abbrev keySize : Nat := 16
/-- `MAX_VALUE_SIZE`: the bytes of the value field, and so the most that a datagram carries of a
value. -/
abbrev maxValueSize : Nat := 1416
/-- `NUM_SRV`, the number of storage servers among which the items are distributed by a hash of the
key. -/
abbrev numSrv : Nat := 4
/-- `MAX_WORKERS`, the largest number of workers of a server. A worker is a thread with a partition
and a UDP port of its own. -/
abbrev maxWorkers : Nat := 16
/-- `DATASET_SIZE`, the number of items. A definition and not an abbreviation, as nothing should
ever count up to it. -/
def datasetSize : Nat := 10000000

/-! ## UDP base ports of `header.h` -/

/-- `ORBITCACHE_BASE_PORT`: worker `i` of OrbitCache, and by `server.c` of NetCache as well, is
bound to this port plus `i`. -/
abbrev orbitcacheBasePort : Nat := 3000
/-- `NOCACHE_BASE_PORT`: without a cache both the clients and the workers use this port plus the
partition. -/
abbrev nocacheBasePort : Nat := 2000
/-- `NETCACHE_BASE_PORT`: where clients of NetCache send their requests, plus the partition. No
worker is bound there. -/
abbrev netcacheBasePort : Nat := 1000

end OrbitCache
