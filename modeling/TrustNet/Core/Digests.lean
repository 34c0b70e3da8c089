import TrustNet.Core.Types

/-!
# Digests of worked runs

A concrete instance of `Sha512` for runs that are evaluated: the table of the
SHA-512 digests of the blocks and trie nodes that occur in them. The inputs are
long, so a row holds a checksum of the input in place of the input.
-/

namespace TrustNet
set_option autoImplicit false

/-- The last `k` bytes of a number, big endian, before the bytes `acc`. -/
def bigEndian : Nat → Nat → Bytes → Bytes
  | 0, _, acc => acc
  | k + 1, n, acc => bigEndian k (n / 256) (UInt8.ofNat (n % 256) :: acc)

theorem length_bigEndian (k n : Nat) (acc : Bytes) : (bigEndian k n acc).length = k + acc.length := by
  induction k generalizing n acc with
  | zero => simp [bigEndian]
  | succ k ih =>
    rw [bigEndian, ih, List.length_cons]
    omega

/-- The array with the big endian value `n`. -/
def digest (n : Nat) : Byte64 := ⟨bigEndian 64 n [], by rw [length_bigEndian]; rfl⟩

/-- The checksum that stands for an input in the table, after `k` bytes with the sum `n`. -/
def checksumFrom : Bytes → Nat → Nat → Nat
  | [], k, n => (k * 1000003 ^ k + n) % 2305843009213693951
  | b :: data, k, n => checksumFrom data (k + 1) ((n * 1000003 + b.toNat) % 2305843009213693951)

def checksum (data : Bytes) : Nat := checksumFrom data 0 0

/-- The digests of a table; an input that is not listed has the digest zero. -/
@[reducible] def Sha512.ofRows (rows : List (Nat × Nat)) : Sha512 :=
  ⟨fun data => digest ((rows.lookup (checksum data)).getD 0)⟩

/-- The empty trie node. -/
def emptyDigest : Nat :=
  0x8785f615b30c07eb4c5f5d72c9b3663521081581ec670631b28be491f5f7ad6c6757b9a2025c68471fa3c9db65305804f6ec6dfd15159b02e91c58ad570e92fb

/-- Genesis at time 1. -/
def genesisDigest : Nat :=
  0x1e1947df37dfc2369fdfd923948ae30013b1297717737c02b55b1b694ace03de56e2cb5dc1b27f68190a13b4a0c6c9deec702d3bf69958dca732b724a118532e

/-- A child of genesis. -/
def leftDigest : Nat :=
  0x6861313ec04247dd0cdf8c864559c67f56acbb5688c516e211dea0c08c5f68486de640ca53df76472af317c6c7180d63c63098b7a1be86f1c0c4f24e89d9b48e

/-- Its rival, as heavy and with the same byte sum. -/
def rightDigest : Nat :=
  0x9aac7cb25a6f18a6da05c5b3d0a86d9514091bed5114bbe566bd506efe9322e43801a80d65fbd761c44d72d94418d5c771a2a9cf77ec6caeeb06fc5ac856c51e

/-- A child of the rival. -/
def rightChildDigest : Nat :=
  0xffe9657a8dbef132da4c29630f7f6b202ee84b0900ff37d0ae16032da342f85c028691bd25d15b565e73eb4e1ec4f965c55bc38fb7501e29395a3612c754eaed

/-- The transaction with payload 1. -/
def transferDigest : Nat :=
  0x072b8df9b4c9ace238574b33f807b661ec38bb15ee74425a921e3821f56b178cf8728767a3b05dcfe7927d0c461cccd5ec2e192ce47b2ba12640c42301c59e6d

/-- A child of genesis with that transaction. -/
def onceDigest : Nat :=
  0x27fa84bb84544cada3e25e2743fe25d92d2aedd34e18c9165c6e00f1ae410ac45a2223b4faf291e60b837de805e2dae053e8c0c62319cccfae3422e1f627e03b

/-- A child of genesis that has it twice. -/
def twiceDigest : Nat :=
  0xae4f9bc6e60c3387275973d96a7664d78e01557565273471b7d41edfe8988d1f88be5235b92186baf56570c396b96a95f3e19d2ee993747e13977e6cc4a0507d

/-- The trie node with the value 1. -/
def leafOneDigest : Nat :=
  0xfd6b0a66421a028fa2f4202a00afc1d68cc29657c58e8976c0d44af3c62f4fb0a412b4563ec2a7333db66424964f47432f8242bbabd94c7495fdc9d2dec68971

/-- The trie node above the key a. -/
def pathDigest : Nat :=
  0x39ffd01e8d6938973246e726b5cf2dad21cb3afaeb3eca68d35d9cf86dd9e184c1f5091aa8c758eaa09e626d3b192f6b408c39d1cb2ff9d60d7097dfc782b721

/-- The world state with a = 1. -/
def oneDigest : Nat :=
  0xbd1c2462b8179d689ebfe5cc3b603d09ec86d3a1d780d8dd862b15b8db690b4587f19fd8b8cde272d8cb102f4c4d8f16b0ee0e19ebe532444c1d4578d418e7d9

/-- The trie node with the value 2. -/
def leafTwoDigest : Nat :=
  0xfcfb94ec1d8952cca05ab232c8ffa6895bb5a5581cedd804fb7556d824987b42f37d9ceae8dce77d52356567efa5f550aadeba7e7da7674050b67ee095456fcd

/-- The trie node above the keys a and b. -/
def forkDigest : Nat :=
  0x950b775c9c4d5c1aed7f76185308fc593a662d6e0e50e0bfcdc7fdbde457fde45215688da60cb0f629e2e33b9d8dcb8ba9befdf396e2d88a419828d091c5fd48

/-- The world state with a = 1 and b = 2. -/
def bothDigest : Nat :=
  0xd65b886e68aaac59311871f80981804e813adfd81cc91d37aa2ef43fdf8e90f00017d5216a909af34bced07bfeaf290999b8cc192b5e730c60f415aaee11dc74

/-- A child of genesis that sets a. -/
def smallDigest : Nat :=
  0xf0b9ea4eb1eaf0b0bb76a003542f1efc299bdd8816fa1a7f27f6d4c8555ded8befe0bbf9ea32b878a71ae9f55071c010774b7115a4ef1319d2c1cfee94aba2ba

/-- A child of genesis that sets a and b. -/
def largeDigest : Nat :=
  0x269ed40ff814fd1a80c9f59ea7af216f35553a7b78b0642568f528d7f738e7552f39a3426331dcda22399841f76eda9e96a33e28d8345e833413ccbe3fe67995

/-- A child of the block that sets a. -/
def smallChildDigest : Nat :=
  0xb5b8f2e9af1bdca1533ce267df87b5b506117a6bab10e57b9b3ae9356793357f29e5e30f9a3e4488467c6d80e2f3a038857f7dcdc54ab119adacbb7ce4e9c31c

/-- The trie node above the key b. -/
def pathTwoDigest : Nat :=
  0xca1dbe3ec458297ffba434fe76fa31dbbcda74fd071c6c5768d5489c29384e79046d2c412da95fb94d8d663049747ec3b21ccdc50bc7a33c2623548438f09e2d

/-- The world state with b = 2. -/
def twoDigest : Nat :=
  0x9018a64b9c3ae29637b3e87cad26384926eb852ce3defe3d33b8424a8e21b56f25d518d94fa554f81e19295b4278c4d3a8e40a3fceae553c3fb74aef56aed238

/-- A child of the left block that lists the right one twice. -/
def paddedDigest : Nat :=
  0x1cb0ac0e9002b89ea3602f42beb0fc238e3a63db0e10bbdd8cae2c9b2a13a5d2e1121da50aff7d8006d7f476bef610b95a5c364af0852c43fd3888caf57db820

/-- A child of the left block. -/
def leftChildDigest : Nat :=
  0x18e374d91d5ef2d77e8a02825d777822431308a436dc0669de9572162d8391cdee9420d91242663ac55f06b3cf3acbefac06131ab42951eadf447f42b2ed0781

/-- Its child, with the child of the right block for an uncle. -/
def leftGrandchildDigest : Nat :=
  0xa3266b28241c10c45ba89fee5e5237866baa53ae5756318663d11920f2a57b592494a32ced6cf28ea743d5c50034021334bb94e32210b9632d36d45ba73cfe2f

/-- A child of the block with the transaction that has it again. -/
def againDigest : Nat :=
  0x236bee89967f82f60c8bf6ff6b2dbae4b095a93fa2409e1065e27235e876fb225ae0c39b5c800289bf679e8048a16906546915ce706168da23b55aa658562217

/-- Another child of that block, with the left one for an uncle. -/
def branchDigest : Nat :=
  0xe61f1680b39ec0ac38c702434530b28ca7c6a305db93a1519816381e0dff346869f5bac5e46c200cb7baf3b0e972846a285a95f8b025a680eb67578c410ccd2d

/-- A child of the block that has the transaction again. -/
def againChildDigest : Nat :=
  0xd7b5db55d30676cffd2673a37a66ea1e5a729c10589a0cc834c6991ad6f70bfb4c51572881617638db3bbfcd4cf35b010dce99bdee95c3642e0d2d35c96ee62c

/-- A child of the other child. -/
def branchChildDigest : Nat :=
  0xc8025f450fb97c100b294caeb0aa2f4f84fdefe49fe1e2e36a01c90e4ded1f012413e0089b6bf99d2675a6da352c5f0a6ad5385aae447b003c74436838c2f46e

/-- A candidate on genesis with the transaction. -/
def ownDigest : Nat :=
  0x952434cf6147c7bc5461e4069ed14a37a83db6a6b8ab3412f7e538642d47cda873979f12cd43073030f4bb6f89f7a5ae758f44850f43cbce88a768ded5c8959e

/-- The child of genesis of miner 3. -/
def thirdDigest : Nat :=
  0xa32c29c40c9af4826cc86f44a405124be7e3a28f7aff75245560e2cd21f7d9f1d90347d7cbab6519974b7f87b58589881a7f0670978530d39ebee2d56abf90f2

/-- The child of genesis of miner 4. -/
def fourthDigest : Nat :=
  0x08542cba21ca767afb907918afc763d32362229abae02f0078329bf5ae4ab005febf7638df12c3e7ad507a7107e7a60ac7f3ceab9898fa835a4c74d5dfadceb2

/-- The child of genesis of miner 5. -/
def fifthDigest : Nat :=
  0x0ddb38b2c165d7ff0090a2749ff8b0bbcee7e103f236d2fc8894d70066b585998711c9330d57bf01ddbeaa118653ad5ec3f05d3e43101393f37bc4fdd8209d80

/-- The child of genesis of miner 6. -/
def sixthDigest : Nat :=
  0x550e2be066f8b75e98d0906da0ccc4f7b25434fe905676e2ffd55320e6ad7e739d96b903e544415760c4c49c13ad60b4e326537812bd4b10b5a98fec26542722

/-- A child of the left block with the five others for uncles. -/
def crowdedDigest : Nat :=
  0xb227aa4d69343b3f8ce5c5764116cbbeaaecdcdd449f1554b4a6bf3508e5ea7c6a43f3dd4442fbfdc9c91485a39da38ea4c20df988b24da4cffd1f24fae16be6

/-- Its child, with the same uncles. -/
def crowdedChildDigest : Nat :=
  0x1cc580efbc71003e80324cf32aa021b39bdc9cd9c9d20b02ad7a306969b84b750982ec69aa2b130a5bba9c45bfd0171155f3f20c75b8d7d4d96bc8671ad855e2

/-- A candidate on the child of the block that sets a, mined on an empty world state. -/
def staleDigest : Nat :=
  0x175dff1a508fe1d1039b5c26bd5b235519ad6fbf26c9c1ad64054652e0a1724dba3032073ea1329b3b446c5e95b70e5f95b2c5ce76430069570114b99d259720

/-- The same block on the world state of its parent. -/
def replayedDigest : Nat :=
  0x6b45737d55583d3a7179d9e00a65b9db6aa64f42fcf8ccaf878efefdfce99c1be843d8887045ca5b1ea7b09729787bdddfb873fd8c9a0ebb2a51f2ea8c51f388

/-- A candidate on genesis that sets a and has the transaction. -/
def filledDigest : Nat :=
  0xa682da8744c5c02d467ba9a9ba19ef009ce54cfd23f85ea4c3211b2ac26952998e1933bafccc5ecba6c0447fff403a1c40b8dff029f095b0dbde382f78538062

/-- Another child of genesis with the transaction. -/
def rivalDigest : Nat :=
  0x6e45e6805b408f61f7f2ac0fce97552e13229f6f2b535b2087952162a98ede451685dce28b712475fcc71844d2d7a7a7ab40f153fe8e09ef249caf09cbacb0ea

/-- A candidate on genesis, created one tick after it. -/
def laterDigest : Nat :=
  0x6fcb8a1710e6e8834d5d4e17f9721dbb41c1aa223079e80e253f54d40823ed283008c9bf565141cda874c2a0f651dbce71f85b50a8935f8abd30b280cea57b02

/-- A network block on that one, three ticks after it. -/
def latestDigest : Nat :=
  0x4f0d1ad13b1e677e6cf9fb173a504571b174a16a6a7ced15accd3f0fa6c561979894525eecf1871d1177d3d83c4d88e06c63c73cb35e94169b6289524b753078

/-- A child of the left block with the right one for an uncle. -/
def nephewDigest : Nat :=
  0xeae0a539cf02f6602a1c60aa6ab1a0bcc78b66a3e8ee754013bb0ed678dd31df46fc81f6844a78815e891b3f348777a8ce19d84dbaf161f83125748b2a6e788e

/-- The transaction with payload 2. -/
def otherTransferDigest : Nat :=
  0xb2ac2370c30c8fc4dd4f1b77c0284c067f110bb3d00afbd629b4aecc2862a15c6b9f5233397c106c774760b16c72e735a412897524a82b442d17b1b878bb33e5

/-- A child of the block with the transaction that has this one. -/
def otherDigest : Nat :=
  0xd3c651dd926b4f35947b8cab18bc587ed203fea8f521acdb60b6eea7523ebdf84336f7641a9275018889948f5594c48892ec96fe13117793e4e4e8029de31719

/-- The rows of the worked runs. -/
def digestRows : List (Nat × Nat) := [
  (1069660139601134450, emptyDigest),
  (732160913283688911, genesisDigest),
  (1470670023887848994, leftDigest),
  (1182769317049242200, rightDigest),
  (289259954925426589, rightChildDigest),
  (565431107700041266, transferDigest),
  (1242641178212183941, onceDigest),
  (1532111346516861238, twiceDigest),
  (1404222124821451457, leafOneDigest),
  (1497298138510193318, pathDigest),
  (1139168634858164225, oneDigest),
  (1404222124821451458, leafTwoDigest),
  (547150763651849185, forkDigest),
  (2188714753042403735, bothDigest),
  (1999288880035055786, smallDigest),
  (840467909543416205, largeDigest),
  (176627405235344218, smallChildDigest),
  (119512764742790317, pathTwoDigest),
  (1938914624832756461, twoDigest),
  (801903745692208181, paddedDigest),
  (1147455950905776072, leftChildDigest),
  (126857046343135505, leftGrandchildDigest),
  (2195356142927697808, againDigest),
  (1475597167053508362, branchDigest),
  (2165428627392386143, againChildDigest),
  (66584529433625674, branchChildDigest),
  (2133129487336887888, ownDigest),
  (894868610210634932, thirdDigest),
  (606967903372027901, fourthDigest),
  (319067196533420870, fifthDigest),
  (31166489694813839, sixthDigest),
  (2132871171418808512, crowdedDigest),
  (358568395057987416, crowdedChildDigest),
  (2104594528660960359, staleDigest),
  (308453154399491345, replayedDigest),
  (970977841431178289, filledDigest),
  (1775363064601916924, rivalDigest),
  (2048982107083784787, laterDigest),
  (356972608985564448, latestDigest),
  (1199745318289153077, nephewDigest),
  (340803304734424345, otherTransferDigest),
  (357105826565989487, otherDigest)]

/-- SHA-512 on the inputs of the worked runs. -/
@[reducible] def workedSha512 : Sha512 := Sha512.ofRows digestRows

end TrustNet
