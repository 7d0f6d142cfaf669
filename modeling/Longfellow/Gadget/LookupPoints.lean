/-
**The points of tables** (`core/algebra/src/proto.rs`, `core/algebra/src/gf2_128.rs`,
`compile/algebra/src/fp.rs`, `circuits/bit_plucker/src/concrete.rs`).

A table of `n` entries has its points where a field has them: around zero in a prime field, and at
the sums of a basis in the binary one. A group of bits is packed as the point of its number.
-/

import Longfellow.Gadget.Fields

namespace Longfellow.Gadget

/-- A field with points for the entries of tables. -/
class HasLookupPoints (E : Type) where
  lookupPoint : ℕ → ℕ → E

export HasLookupPoints (lookupPoint)

instance (p : ℕ) : HasLookupPoints (ZMod p) where
  lookupPoint n i := (2 * i : ℕ) - (n - 1 : ℕ)

def cantorBasis : List (BitVec 128) := [
  0x00000000000000000000000000000001, 0x295ac0b1f4731af9676aac9fa4b20b08,
  0xa2134422cd4054c9ff1099c31bbe8f22, 0x500317bd159d73bb34d2f7fba603e341,
  0x83bf3780d006f6d252c6edb8d642d26e, 0xebda7634f8687551b25828a57a56efcf,
  0xa72ec17764d7ced55e2f716f4ede412e, 0xfe7de7d03efd328e1087080009eb5bd3,
  0x9ad8b122203c68c40c85baae0006a2d4, 0xc71ccfcccaad7bc981507aa983af33f7,
  0x60025c0e48a11c7a2f5743199fdbc286, 0x61ee2b14f08462fab55330479cc8c9de,
  0x1d192c28f96a44242925cc28d49e73dc, 0x0cb7d1eb50cdd4d64c84b0798d984637,
  0x820ab44ae2d78606ec48d11f4e773720, 0x115eef087a6614225b3859f6881ddf69,
  0xe67d7d64ec1a7468dbcde9253b63c2b8, 0x688757dce64bfdb095e57a5b2255ffeb,
  0x9b667c362b996b6b2623a4593f71b24d, 0xd2811a2dba6039b03add59ffa585c1c5,
  0xbbd127a36a0d321673edb11df074f5b1, 0x97f28086fee2b10eaf1feed741defd29,
  0x96226ea7e433a8d66e8beae292830e6a, 0x45af8a5ed7f3720f74f37f26335ad0b7,
  0xe2cee220a34e8f01d5da765a5b49579f, 0x7071be5884693b2dc8e7d40b60995e2b,
  0x83ee771f33b7a640b003474885a5ec65, 0x21d042943adce5bd7e4c5a9ae7b68b9a,
  0x24579c4b1b4b1fcd11dfd8f2438aface, 0x7129d733c8a383ccb255a1feb25fcb3f,
  0x00acc2e753e9a37c1b19a41cc77e824e, 0x05948e7276fe312fcdb6535710093a6e,
  0x29b5ccfcee2023a45b5c1b445ae5ee10, 0x6d3db91e92da7d001535fedf4bfd6d28,
  0x6df258d5c4637cf741980d1eea88fb1e, 0xa78de3823959dcd29535c6c0dac95774,
  0x5c68734e2359b7249ee1568726db4f8c, 0xba3d9499123ff2564c67dc010e965728,
  0x500349fcb63c51291d787ab95a4d5245, 0x3187881ff24dbec0c3a32ee232aa3e2f,
  0xbe93fe591d22ba17856626df240511f3, 0x251eb255d951d8905da6dc6dafb69e7b,
  0x257dbb1591f6ed3f829f2f0d1f753844, 0x93f460738329387d8d2a070a665fea46,
  0x4993ed600c07fc97d4645e7df0c2863d, 0x09c2b7ea7c08b41b5096754e52a627d9,
  0x8e3bb7c5fd4581b923483f2dc116550b, 0x14da8a55305a14dcf065938a45b3e9ea,
  0xca545bc71baf271a10126ffa1a472734, 0x45a29af0c8341f97ad0bb67f0983c443,
  0xfa5aeb56e140df882a452342a0908701, 0xdf61c97ed838563a20802b3c520bb2bf,
  0x9ea11aded35bc2a903c54721d2480e8d, 0x78e8cebff0be99f1386fcffc8161532d,
  0x5c45b9929a1b4f4fbe7b27feb0b618df, 0x8ae41e58e80daf598836a18e3a43a583,
  0xcf45cc13cc6d0fc4bcadfa239c60ea80, 0x48ede7f2d624d0bc88a17446fd286c55,
  0x5886f9e8b74b644315e2bd5de5359a4a, 0xeb74e6127c2ad1c77ae8211363c9660c,
  0x2d7bac6c6488d95092c3fb5262fc078e, 0x8a28e532d5757ef81b5e480c70233949,
  0xbe82d512bbecce5b904157aae946acbf, 0x219dcc0314594acbfd8832bc9dd71991,
  0x8f929c7a6af78618b37a462313ffaa32, 0x0d6d5d164e78c03778d99e340abe8362,
  0x833556b4ed32afcbf425e6fe47319622, 0xafc6d8a9abb67ade9ee18ce1cdc8f9a7,
  0xe6dc2dcd06845ef305998a4d842928cf, 0x0d1e5a60420eb1a37c413b16fd361b43,
  0xe256d9a54db7f9defd5875fd931f8e8a, 0xef27f455211092dbc152cb41f1b2ed0a,
  0xd787aa6749a26685b7483ae6c5651dfc, 0x65f95b02626ef157d5096c60c4251563,
  0x68b470de9b8481aef0628aae4e654a94, 0x1c247b6740139a02afc70c59e140ba07,
  0xaf13f9c8dd3f9635e1dc6501fd19bea2, 0xa675c21ee3d90a6fe22ae612b81e5b27,
  0xff1f8ba7c121c469aba0e4a32973934d, 0xa606b00cbd27a0de2ed5c64bb0ff5916,
  0xba889125f0ec00084b11fde0c6282317, 0x1ce5982fc190291dd6cd03d9479b9bfa,
  0x9e53d272bc981b9061ec19d8c8221049, 0xca7b796a75754e64d427999943a03485,
  0x289b96be651a97379bb68d7528cab51b, 0x87f2df561da6da94b1bf9662bcd46823,
  0x4db055bc0c5e6d5706528efea662f7a6, 0x44571c990666cc919968f24c84af1739,
  0x4452a086686747942a868d948028eeb7, 0xae91fb8a0fe8daee0c86d8371e25dbc9,
  0x6d1a5f353fe5b28c5128318ffb89a382, 0x0535eb8e9ce34e0d4599a9a0a072399c,
  0xd62285201a42b40d0fccb743565887dc, 0xef859a1f2db83d5e370e40f99f2be944,
  0x2c3c681d5b2853ad31accadd22cc0953, 0x384525174805b4ea97d344582cba0849,
  0x381e5d17668d10d09c830bf49fe3c9bf, 0x304a36f81b7013329719f46309e2327f,
  0x8b0e1fa093100a333407e0cb959d37d0, 0xbee1d201897c75aaa6d675cb215ed158,
  0x92f423eaa366af4b95760bef24c8fca3, 0xb688a4acfb985e5547bfcb216315c0a2,
  0xb66cd49195e502ca5a32b50bb3d74c97, 0x6116fca608cb967d48e6bd71fd2a78dd,
  0x2851ff856cf9e592a214c4e33f7bd276, 0x970c173cac6fe053fd0ae016613a1e5f,
  0x75f3a5a261b4f581e075f93e244ee04c, 0x090dafbb9987a289d960dc578432e383,
  0x8ec1c978375df24adc55cb8c4af45729, 0x09f1b46636e979432391b42d2ef3e199,
  0x3063b0786ad6ca4b7772d233e81c1abb, 0x081f9b58efd1846bb38b795fedae2721,
  0x86842b23e7da94aeae4abf26020213c9, 0xca3a89ee3750f28ba5473fb8c46ba06a,
  0x38b06ddfffe0cc254e2bb812c5d37d54, 0x8350cd0e7b15992316def098ee494050,
  0x591f3746dca77cafd8062ae178b2ef5f, 0x6079d9853758515c1bd85234650f9ed0,
  0x8fb8735a579d7e79fc1c814a55f1dab6, 0x65a27df65b4c96f2d1d146e2bad0527d,
  0xf2ae5da6a3bf7866401f2877ac35e2c0, 0x419a74267844d8e21a2e6b5d206ad31c,
  0x481a60f316f52304c0d5b95d21b5c79d, 0xdb33d116069018a5a10900b6598f83f5,
  0xbe20151a18ab943367c62ee9133007a8, 0x5896943f7aaada1469b05d2d5de9a142,
  0x40eeaebc9644df27739c17b703524f04, 0xcc450f74ca16c07395a6b814ca9ade04]

instance : HasLookupPoints Gf2128Elt where
  lookupPoint _ i := (List.range 64).foldl (fun pt j =>
    if i.testBit j then pt + ⟨cantorBasis.getD j 0⟩ else pt) 0

/-- The point of a group of bits. -/
def encodingPoint {E : Type} [HasLookupPoints E] (width v : ℕ) : E := lookupPoint (2 ^ width + 1) v

end Longfellow.Gadget
