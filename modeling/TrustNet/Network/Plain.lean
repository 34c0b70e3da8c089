import TrustNet.Core.Digests
import TrustNet.Network.Platform
import TrustNet.Trie.Binding

/-!
# A plain encoding

An instance of `Outside` whose calls can be evaluated, for the worked runs of the platform.
A key is one byte, which is also the address, and a signature is the address and the hash
that it signs. Operations are written as words, one for the code and two for each
parameter, and read back from the last word to the first.
-/

namespace TrustNet.Plain
set_option autoImplicit false

/-! ## Words -/

/-- A word and what follows it: each byte behind a mark, and an end mark. -/
def writeWord (word rest : Bytes) : Bytes := word.foldr (fun b bytes => 1 :: b :: bytes) (0 :: rest)

def readWords : Bytes → List Bytes
  | [] | [_] => []
  | 0 :: b :: rest => [] :: readWords (b :: rest)
  | _ :: b :: rest =>
    match readWords rest with
    | [] => [[b]]
    | word :: words => (b :: word) :: words

/-- Words, with a last mark. -/
def writeWords (words : List Bytes) : Bytes := words.foldr writeWord [0]

theorem writeWord_ne_nil (word rest : Bytes) : writeWord word rest ≠ [] := by
  cases word <;> simp [writeWord]

theorem readWords_writeWord (word : Bytes) {rest : Bytes} (more : rest ≠ []) :
    readWords (writeWord word rest) = word :: readWords rest := by
  induction word with
  | nil =>
    obtain ⟨b, rest, rfl⟩ := List.exists_cons_of_ne_nil more
    rfl
  | cons b word ih =>
    have step : writeWord (b :: word) rest = 1 :: b :: writeWord word rest := rfl
    rw [step, readWords, ih]
    simp

theorem readWords_writeWords (words : List Bytes) : readWords (writeWords words) = words := by
  induction words with
  | nil => rfl
  | cons word words ih =>
    have more : writeWords words ≠ [] := by
      cases words with
      | nil => simp [writeWords]
      | cons next words => exact writeWord_ne_nil _ _
    have step : writeWords (word :: words) = writeWord word (writeWords words) := rfl
    rw [step, readWords_writeWord word more, ih]

/-! ## Operations -/

def paramWords (params : List (Sigma fun _ : Bytes => Bytes)) : List Bytes :=
  params.flatMap fun param => [0 :: param.1, 1 :: param.2]

def opWords (op : Op) : List Bytes := (2 :: op.opCode) :: paramWords op.params.entries

/-- What is read so far: the operations, and the parameters and the value of the next. -/
structure Read where
  ops : List Op
  params : List (Sigma fun _ : Bytes => Bytes)
  value : Bytes

/-- Read the word before. -/
def Read.back (word : Bytes) (read : Read) : Read :=
  match word with
  | 0 :: key => ⟨read.ops, ⟨key, read.value⟩ :: read.params, []⟩
  | 1 :: value => { read with value }
  | _ :: code => if nodup : read.params.keys.Nodup then ⟨⟨code, ⟨read.params, nodup⟩⟩ :: read.ops, [], []⟩ else read
  | [] => read

theorem read_params (ops : List Op) (params : List (Sigma fun _ : Bytes => Bytes)) :
    (paramWords params).foldr Read.back ⟨ops, [], []⟩ = ⟨ops, params, []⟩ := by
  induction params with
  | nil => rfl
  | cons param params ih =>
    have step : paramWords (param :: params) = (0 :: param.1) :: (1 :: param.2) :: paramWords params := rfl
    rw [step, List.foldr_cons, List.foldr_cons, ih]
    rfl

theorem read_ops (ops : List Op) : (ops.flatMap opWords).foldr Read.back ⟨[], [], []⟩ = ⟨ops, [], []⟩ := by
  induction ops with
  | nil => rfl
  | cons op ops ih =>
    rw [List.flatMap_cons, List.foldr_append, ih, opWords, List.foldr_cons, read_params]
    exact dif_pos op.params.nodupKeys

/-! ## The instance -/

/-- A key, with the byte that is its address. -/
structure PrivateKey where
  address : UInt8

def verify (address : Bytes) (hash : Byte64) : Bytes → Bool
  | signer :: _ :: signed => decide (address = [signer] ∧ signed = hash.bytes)
  | _ => false

/-- The plain encoding and signatures. -/
@[reducible] def outside : Outside where
  Identity := PrivateKey
  address key := [key.address]
  serialize _ ops := some (writeWords (ops.flatMap opWords))
  deserialize payload := some ((readWords payload).foldr Read.back ⟨[], [], []⟩).ops
  sign nonce key hash := key.address :: UInt8.ofNat nonce :: hash.bytes
  verify := verify

theorem sameOps_refl (ops : List Op) : SameOps ops ops := by
  induction ops with
  | nil => exact .nil
  | cons op ops ih => exact .cons ⟨rfl, .refl _⟩ ih

/-- What it writes is read back. -/
theorem outside_works : @Outside.Works outside := by
  refine @Outside.Works.mk outside (fun n ops => ?_) (fun n key hash => ?_) (fun key => ?_)
  · refine ⟨writeWords (ops.flatMap opWords), ops, rfl, ?_, sameOps_refl ops⟩
    show some ((readWords (writeWords (ops.flatMap opWords))).foldr Read.back ⟨[], [], []⟩).ops = some ops
    rw [readWords_writeWords, read_ops]
  · exact ⟨List.cons_ne_nil _ _, decide_eq_true ⟨rfl, rfl⟩⟩
  · exact List.cons_ne_nil _ _

/-! ## A node -/

/-- An application that sets `k` for the payloads 0 and 2, and rejects payload 0. -/
def txProcessor (tx : Transaction) : Script :=
  match tx.payload with
  | [0] => .update [107] [1] (.done false)
  | [2] => .update [107] [1] (.done true)
  | _ => .done true

/-- The node with a key. -/
def config (address : UInt8) : @Config outside :=
  @Config.mk outside (@Trustee.mk outside (PrivateKey.mk address)) txProcessor fun _ _ _ => true

/-- A transaction of the application. -/
def transfer (payload : UInt8) : Transaction := ⟨[payload], [], [], 0⟩

/-- `Start`, as goroutine 0, begins the producer 1. -/
def startProducer : List Event := [.start 0, .launch 0 1, .running 0]

/-- The producer takes a transaction into a new candidate. -/
def fillBlock : List Event := [.take 1, .candidate 1 0x200001, .reward 1 0 0 0x200001, .process 1, .add 1]

/-! ## Digests -/

/-- The genesis block of the platform. -/
def genesisDigest : Nat :=
  0xf61c9ae112e04c5f839bc0e2f00b6e64001adc0103070f5d3e3632d8d1b0ae092a73b457f3c134a63510991ad8aea7469b6acb15b24d0ede64a169332a128f6a

/-- The payload of the reward of node 1. -/
def rewardPayloadDigest : Nat :=
  0xc978ddd2e34cf92ad95278b113e5b97ed9f5ec98349358f2ce1b5b282f13f95cb265a8c2660207c6c52ba46fd57e9390b7fe342552255f582587930a0ad5c2e8

/-- The reward of node 1, signed. -/
def rewardDigest : Nat :=
  0x87a4ce06edcfc361cef268c94cffb06b50b298e68ecc8b591f4a9cc8566c9857ad9b78ae47c1442c1a1a0b08236716f5adb8ecf4240c739e3925b254e2d0e966

/-- The transaction with payload 1. -/
def transferId : Nat :=
  0x072b8df9b4c9ace238574b33f807b661ec38bb15ee74425a921e3821f56b178cf8728767a3b05dcfe7927d0c461cccd5ec2e192ce47b2ba12640c42301c59e6d

/-- The trie node with the balance 1000000. -/
def leafDigest : Nat :=
  0x6e99351815c2f449a29818207b97da759a761a6f29641fb10c1074f7ac0b8964932a9f3252508b1b2e763ea0b7d4a80c429b6fd365f77436b81c6c974f65fc5b

/-- The trie node above it, for the account 01. -/
def lowDigest : Nat :=
  0xb0a501f04f72d931d6d7e9a77765d386831a85f195e9ec69cbd61486e763085d26fd674cf76b5a4eba91b35a5fe29d29a00d640f50082904d36ca027254ed6c8

/-- The trie node above that. -/
def middleDigest : Nat :=
  0x3f0a0b0ae8421e82229112c7cd6659a6c4a811fc90dd51cbd47321c26590485bb7fe7cc4fc7fcf5114342dfd69ed0c80092fd5179afa446ecc199372ddaa6ac0

/-- The trie node above that, below the root. -/
def highDigest : Nat :=
  0x03a94e13f187819c602e8776d3b199b697b11c0667578711640cb7b49b84f3419606fddb9a7103dcad332068a151b3861b57fd83b28a4674e252732d3ecc9c1b

/-- The world state with that balance. -/
def fundedDigest : Nat :=
  0x8ec41ebba68e31479bd0fa23225771ec70247dc6457734418bdf7bb372ffe3b7b26cdc2f1d153d8b11a2a78a24dd0a17dc6c0ff867017ef328bef935231e6798

/-- The block that node 1 produces with the transaction. -/
def producedDigest : Nat :=
  0x51985e83d6befd0e762c3bb6c41f0709545e22c1aab75b7b749b778680b7f3fb2aea5b6ef9d76fe5bff4340bbce1fe7cecce4e09ff094a01ddebfbe04a60ef1a

/-- The transaction with payload 0. -/
def rejectedId : Nat :=
  0xa85de39409374651002c84cba7c928eb96fb82f88acc2aeac392985def3e1389346122b82c9c47b743a5c2764bb0e3f5c309af7202dbe723e69a5193e84fcbc4

/-- The trie node with the value 1. -/
def keyLeafDigest : Nat :=
  0xfd6b0a66421a028fa2f4202a00afc1d68cc29657c58e8976c0d44af3c62f4fb0a412b4563ec2a7333db66424964f47432f8242bbabd94c7495fdc9d2dec68971

/-- The trie node above it, for the key k. -/
def keyPathDigest : Nat :=
  0x61b59b6b48a7252e664e838cd07d7d2bec4aeeb3b3d5db9f2daf29d7089a6c5b9d68f24f93ff4ed156b70ed98f9f12f1f574ebc45a3fc8ef6f1ffefeb6a98220

/-- The world state with the balance and k = 1. -/
def keyedDigest : Nat :=
  0x0a977fc3bd5f754c0f3514af5c7250483b93847978b7a8c2f242d2ae45a1e6077f210dfad465c10fca3fcf75d2bcb6bec7a1477ddb6cf623e337485ecd7ba864

/-- The block that node 1 produces after a rejected transaction set k. -/
def taintedDigest : Nat :=
  0x34a30b6130d6eb911f044ba6794e81219371e0f4c72c3a43f9a682c3c917deed4cf390cbb113201aa534979482ed177cad46e6e37bc6591c76abde3f15750c2d

/-- A child of genesis that sets the balance. -/
def fundedBlockDigest : Nat :=
  0xc8a500711dddc3bab83fdb44ed56d928f9aa0759b8789ea309185f095e3dede55ec1987bd27fba901e0cddf26a18d82ae5c1b548aff4367ee16b2cca00a4a2f1

/-- A child of genesis without updates. -/
def idleDigest : Nat :=
  0x29fef13f7c7f8c8b4405e96e6938949da9f261196060f0eb7808ad1831f0ad30dc3da69f9f1c6d2fd07a8f0d019113656082fcf30febfaa90118e2503f401f5f

/-- A child of genesis that sets the balance and k. -/
def keyedBlockDigest : Nat :=
  0xc4bee619307e2412d86b4071f9210b9dd9aa5965eeacced94ba74c0bd50067257369c11340e535bffba56244a8897c2f8b8d6b1ae815218037e976a271a6f866

/-- A child of the block that sets the balance. -/
def fundedChildDigest : Nat :=
  0xf650d729dd096115deec5915bc5e163465a1f5f0b92860275e41eebe006af3a4e1e5fd1620b13ccadf21b5b8235171e66a6b753934a524a52eaa8e63d56eb538

/-- The payload of the reward of node 2 with an uncle. -/
def sharedPayloadDigest : Nat :=
  0x1a56c5a2459bb933b11418577f63be33ec18beb249747f8847270122488c7b263343f903e201a72876a63b11bf02759d58629412f7d25b178493facb5f371f7d

/-- That reward, signed. -/
def sharedDigest : Nat :=
  0x6082b815310bec19f0f5184e49273695619a53b7e6273d1645c20ebd7b3bb4e9859309b33aea331657a31a5e774b1b3f2f20fc7eba0b18b1e32f9dedd229c1dc

/-- The transaction with payload 3. -/
def thirdId : Nat :=
  0x1ed9e5ac735536c097c5ad56b9d2b143e03488fea8951e52f907d7605012b4c82b21301bcff89a4cfdb0bdda7b5f19f886b0d7c11c7fd055b46656e0aa8e43ef

/-- The transaction with payload 4. -/
def fourthId : Nat :=
  0xaa6ee86615bf83600e1a9cc59f3dab339d9b62d6eacba769f14a98fa1bfef1944c916e7d0697650e9fa9296f78441ac1098d8bdc832acfacbda4516e021f32e3

/-- The reward of node 1 a tick later. -/
def laterRewardDigest : Nat :=
  0xe3423c4f97e220482fa23d4566f12596394064a965bcfffb7f845c8092f16f3755b12bc06443ebb57d9734892dca0ac5247564465b26b8c462529def65f4389e

/-- The block of node 1 with that reward, a sibling of the one it produces. -/
def siblingDigest : Nat :=
  0xbeee2ce40b25f7f0b350438df78e6fe20f8f0fe9a9bacead421e66fd0c69be9b8fc79a4a0198b3906b6dc9222636527fdf030c2e41cc1f3db7c048c1453b2a56

/-- The payload of the reward of node 1 with an uncle of its own. -/
def unclePayloadDigest : Nat :=
  0x9191b64e78afbd77b0f6b07d8dab2a870d2ca63305ef9f27e6f04fb25de1482ecca628b1890fdb87234348d979e55413e7e4a77cf799fef984071ccbe1e76be6

/-- That reward, signed. -/
def uncleRewardDigest : Nat :=
  0x5c7ab346c355e1e1392f1d1893ff868b8012e74c5b9f9a9179984a8220a506aed3adda4ac12c88835dc697365e8011105d128f4d14419c6e06aef46ab68b5567

/-- The trie node with the balance 2200000. -/
def richLeafDigest : Nat :=
  0xf83ae07efd5ecb9740d0617dcd32567ab70eed95ebf9f5d0dfc0064323fa0221203915f192e740995feb9d76ec0da3fc4f8d7a126e74d35e7a1185a9b77a42e4

/-- The trie node above it, for the account 01. -/
def richLowDigest : Nat :=
  0x966ac2e16965c02f8149cb6e76b3242514ba764b6ae0079cf9cd2911a7f8584bb1cab685aa0b5822ca47b8f3be110548487cbdcfffa458b905753887ddbe973c

/-- The trie node above that. -/
def richMiddleDigest : Nat :=
  0x613dc48ccf26d98f7c973ce9cae063a58fccb92cf86eba7405add24bd1432b7098232c6bd267d9d642391cf1c1d088cd906b375dd2f20471a0e6318e210af0ac

/-- The trie node above that, below the root. -/
def richHighDigest : Nat :=
  0x244cbd662000d73c54b0096db38b924ee66f1a723a0d1663c5a2ebbea10a6b6cf00468adb1acd1d44f46a56501e854a7a00bb95bb365c80d539c5c1f24f45239

/-- The world state with that balance. -/
def richDigest : Nat :=
  0xe1e71cccdc543f6446bd7faa07b1a3dd1f954adf88ace851e621292c5f79bc0aab62e75584bc117c65894298e1406c8de48d906c44a70b4984fb1d601e3b5e50

/-- The block that node 1 produces on the sibling, with its other block for an uncle. -/
def nephewDigest : Nat :=
  0x24a1689b5cbff0aa3bf0565571111bdf84c50726f5e16b4eafbfb05ca214ac04455ef0a1abb314a72f0fcd22b9864ee9ff4cd4d3e419415d7ad54980ed6985a0

/-- A child of genesis of node 1 with the transaction that sets k. -/
def keyedProducedDigest : Nat :=
  0xbf327dfc04325bf48167ee3d9d662c5697ab801d6cf582d6a3c7e80f08bb9cebbcf7fcbd8222baca2328bf7f3453f86e78075113e16154987ecff8b5015d4fe0

/-- The block that node 1 produces on its block, on the state of genesis. -/
def staleDigest : Nat :=
  0x005d781828fd830d29f12986a6034e768fdca88cfec41e69c0e82b1f2ed7443c8f334795f850a1b12f42005303c61063fb0466ea29e36e9a998d5b6b0ee53d7e

/-- The payload of the reward of node 2 with an uncle of node 1. -/
def sharePayloadDigest : Nat :=
  0xe1514fc7674d575d490cbc6b92fc3040be62fb92c6c82cca4410c19bfdc5e34c7621647cdde94c7be2de9f5e465cd8cd209ff62d1dd69e338179c5bc3959e6ca

/-- That reward, signed. -/
def shareDigest : Nat :=
  0x2573411437deea8af6669c4a70d66d30f06f38f04e7580a2b45ac904e0170b21d66e0962bfdfafd47baf3516a031af473a57ba6e93de829bb48a3895e9f72438

/-- SHA-512 on the inputs of the worked runs. -/
@[reducible] def sha512 : Sha512 := Sha512.ofRows [
  (1069660139601134450, emptyDigest),
  (867947642894846054, genesisDigest),
  (1995173922646508650, rewardPayloadDigest),
  (548384450119589374, rewardDigest),
  (565431107700041266, transferId),
  (2026861109609828346, leafDigest),
  (574827359654614443, lowDigest),
  (980221763302313446, middleDigest),
  (296226307808632586, highDigest),
  (1785849361551967106, fundedDigest),
  (1695310950047949524, producedDigest),
  (790058910665658187, rejectedId),
  (1404222124821451457, keyLeafDigest),
  (1991318736963516505, keyPathDigest),
  (400990369123675863, keyedDigest),
  (1930373875336673609, taintedDigest),
  (139205752201285447, fundedBlockDigest),
  (553005540117685977, idleDigest),
  (1318399096590383943, keyedBlockDigest),
  (1774735312345760865, fundedChildDigest),
  (2293581012968411417, sharedPayloadDigest),
  (1952641791820150767, sharedDigest),
  (116175501768807424, thirdId),
  (2197390708016884454, fourthId),
  (548384450119589375, laterRewardDigest),
  (2160051993803555429, siblingDigest),
  (2083263467707012558, unclePayloadDigest),
  (160446539809690321, uncleRewardDigest),
  (2026879109796828873, richLeafDigest),
  (2131213066210853539, richLowDigest),
  (1199335923135106378, richMiddleDigest),
  (700427492123822621, richHighDigest),
  (1411375211699125687, richDigest),
  (2193410777108163439, nephewDigest),
  (92123558974965288, keyedProducedDigest),
  (813166543684944032, staleDigest),
  (2293579012956411399, sharePayloadDigest),
  (908032899887275501, shareDigest)]

/-! ## Trie nodes -/

/-- The nodes of the world states with a balance, and with k = 1 as well. -/
def nodeTable : List (Node × Byte64) := [
  (emptyNode, digest emptyDigest),
  (Worked.node [] (uint64Bytes 1000000), digest leafDigest),
  (Worked.node [(1, leafDigest)] [], digest lowDigest),
  (Worked.node [(3, lowDigest)] [], digest middleDigest),
  (Worked.node [(0, middleDigest)] [], digest highDigest),
  (Worked.node [(3, highDigest)] [], digest fundedDigest),
  (Worked.node [] [1], digest keyLeafDigest),
  (Worked.node [(11, keyLeafDigest)] [], digest keyPathDigest),
  (Worked.node [(3, highDigest), (6, keyPathDigest)] [], digest keyedDigest),
  (Worked.node [] (uint64Bytes 2200000), digest richLeafDigest),
  (Worked.node [(1, richLeafDigest)] [], digest richLowDigest),
  (Worked.node [(3, richLowDigest)] [], digest richMiddleDigest),
  (Worked.node [(0, richMiddleDigest)] [], digest richHighDigest),
  (Worked.node [(3, richHighDigest)] [], digest richDigest)]

section Nodes

attribute [local instance] sha512

theorem nodeTable_hashes : (∀ p ∈ nodeTable, p.1.hash = p.2 ∧ p.2 ≠ null) ∧
    ∀ p ∈ nodeTable, ∀ q ∈ nodeTable, p.2 = q.2 → p = q := by decide +kernel

/-- All nodes of the database are in the table. -/
def Covered (d : Disk) : Prop := ∀ n ∈ Worked.knownNodes d, ∃ p ∈ nodeTable, n.idxs = p.1.idxs ∧ n.value = p.1.value

instance (d : Disk) : Decidable (Covered d) := inferInstanceAs (Decidable (∀ n ∈ Worked.knownNodes d, _))

theorem Covered.known {d : Disk} (covered : Covered d) (n : Node) (knows : Known d n) : ∃ p ∈ nodeTable, n.Same p.1 := by
  rcases knows with empty | stored
  · exact ⟨_, List.mem_cons_self, empty⟩
  · exact covered n (Worked.mem_knownNodes stored)

/-- Databases whose nodes are all in the table. -/
theorem hashSound_of_covered {known : Node → Prop} (covered : ∀ n, known n → ∃ d, Known d n ∧ Covered d) :
    HashSound known := by
  refine Worked.hashSound_of_table nodeTable (fun n knows => ?_) nodeTable_hashes.1 nodeTable_hashes.2
  obtain ⟨d, stored, covered⟩ := covered n knows
  exact covered.known n stored

end Nodes

end TrustNet.Plain

/-! ## Blocks -/

namespace TrustNet.Worked

/-- A child of the genesis block. -/
def genesisChild (miner : Bytes) (state : Nat) (nonce : UInt64) : BlockSpec where
  phash := digest Plain.genesisDigest
  miner
  state := digest state
  txs := []
  ts := 0x200001
  delta := 1
  depth := 1
  wt := 1
  uncles := []
  nonce

/-- The entry of the balance of account 01. -/
def fundedEntry : Entry := ⟨ascii "01", some (uint64Bytes 1000000)⟩

/-- A block without updates, and a block that gives account 01 its balance. -/
def forkBlocks : List Action := [.decode 0 (genesisChild [3] emptyDigest 1), .accept 0 [] 1,
  .decode 0 (genesisChild [1] Plain.fundedDigest 0), .update 0 (ascii "01") (uint64Bytes 1000000), .accept 0 [fundedEntry] 1]

end TrustNet.Worked
