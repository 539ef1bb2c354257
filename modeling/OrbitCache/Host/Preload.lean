import OrbitCache.Host.Message

/-!
# The preload tool

The install packets of `preload.c`: W_REPLYs that nobody asked for, sent from `ORBITCACHE_BASE_PORT`
so that the switch takes them in.
-/

namespace OrbitCache

/-- The install packet of a key with a value, from one host to another. -/
def preloadMessage (hash : Bytes → Hkey) (src target : BitVec 32) (key value : Bytes) : Message :=
  datagram ⟨src, BitVec.ofNat 16 orbitcacheBasePort⟩
    ⟨target, BitVec.ofNat 16 (orbitcacheBasePort + 1)⟩
    { op := opWReply
      seq := 0
      hkeyHi := (hash key).1
      hkeyLo := (hash key).2
      flag := fetching
      cached := 1
      latency := 0 }
    { orgKey := key, value := value, tag := ⟨0, value, 0⟩ }

end OrbitCache
