import Strangecoin.Node

/-! # Genesis

The public networks load their genesis from a file and pin its hash; regtest builds its
own.  Both consist of one coinbase of the sender `genesis`.  A fresh node pushes the block
and credits its receivers by hand, all but those of the sender `genesis`.
-/
namespace Strangecoin

/-- Hash of the mainnet genesis block. -/
def EXPECTED_GENESIS_HASH : Digest := #v[
  0x0d, 0x40, 0x0a, 0x4c, 0x50, 0x61, 0x4e, 0x50, 0xee, 0x4b, 0x33, 0x61, 0x7f, 0x90, 0xe8, 0x53,
  0x37, 0xbb, 0x3b, 0x18, 0xc8, 0x8c, 0xe7, 0xb5, 0xb9, 0x2a, 0x9d, 0x89, 0x74, 0x5a, 0x83, 0xcc]

/-- Hash of the testnet genesis block. -/
def EXPECTED_TESTNET_GENESIS_HASH : Digest := #v[
  0x71, 0x0d, 0x83, 0xd5, 0xc9, 0x2c, 0x4e, 0x57, 0x40, 0x00, 0x28, 0xb1, 0x5d, 0x97, 0xe8, 0x25,
  0xd9, 0x1d, 0x92, 0x81, 0x82, 0x4d, 0x54, 0x72, 0xa1, 0x10, 0xe4, 0xd0, 0x6d, 0x24, 0xb2, 0x70]

/-- The fields of a genesis file that are read. -/
structure GenesisConfig where
  networkId : UInt32
  chainId : UInt32
  timestamp : UInt64
  initialHolderPubkey : String
  initialAmount : UInt64

def Transaction.coinbase (sender receiver : String) (amount : UInt64) (chainId : UInt32) :
    Transaction :=
  .transfer ⟨sender, receiver, amount, 0, 0, chainId, [], true⟩

/-- `"0".repeat(64)`. -/
def zeroHash : String := String.ofList (List.replicate 64 '0')

/-- The easiest target: 32 bytes `ff`. -/
def maxTarget : String := String.ofList (List.replicate 64 'f')

/-- `strip_prefix("0x").unwrap_or(..)`. -/
def strip0x (text : String) : String :=
  match text.toList with
  | '0' :: 'x' :: rest => String.ofList rest
  | _ => text

section
variable (crates : Crates)

def Crates.encodeAddress (pk : List UInt8) (networkId : UInt32) : Except CoreError String := do
  let hrp ← hrpForNetwork networkId
  match crates.bech32Encode hrp pk with
  | .ok address => .ok address
  | .error message => .error (.bech32EncodeError message)

/-- The block both kinds of genesis build around their coinbase. -/
def genesisTemplate (timestamp : UInt64) (coinbase : Transaction) (consensusVersion : UInt32) :
    Block where
  index := 0
  timestamp := timestamp
  transactions := [coinbase]
  previousHash := zeroHash
  hash := ""
  nonce := 0
  target := maxTarget
  consensusVersion := consensusVersion
  stateRoot := zeroDigest
  txRoot := crates.computeTxRoot [coinbase]
  receiptsRoot := zeroDigest

/-- The block with its hash filled in. -/
def hashed (block : Block) : Except Failure Block := do
  let hash ← crates.blockHash block
  return { block with hash := hexEncode hash.toList }

/-- `load_genesis`, once the file is read and parsed. -/
def loadGenesis (genesis : GenesisConfig) : Except Failure Block := do
  guardNode (genesis.networkId = genesis.chainId)
    (.genesisNetworkMismatch genesis.networkId genesis.chainId)
  let pkBytes ← liftError .hexError (hexDecode (strip0x genesis.initialHolderPubkey))
  let publicKey ← liftError .secp256k1Error (crates.publicKeyFromSlice pkBytes)
  let holder ← liftCore (crates.encodeAddress publicKey genesis.networkId)
  hashed crates (genesisTemplate crates genesis.timestamp
    (.coinbase "genesis" holder genesis.initialAmount genesis.chainId) CURRENT_CONSENSUS_VERSION)

def regtestGenesisBlock (consensusVersion : UInt32) : Except Failure Block :=
  hashed crates (genesisTemplate crates 0
    (.coinbase "genesis" "regtest_initial_holder" 1000000000 CHAIN_ID_REGTEST) consensusVersion)

/-- The hash pinned for a public network. -/
def pinnedHash (chainId : UInt32) : Except Failure Digest :=
  if chainId = CHAIN_ID_MAINNET then .ok EXPECTED_GENESIS_HASH
  else if chainId = CHAIN_ID_TESTNET then .ok EXPECTED_TESTNET_GENESIS_HASH
  else .error (.error (.configError ("unknown network ID: " ++ toString chainId.toNat)))

def validateGenesis (block : Block) (chainId : UInt32) : Except Failure Unit :=
  if chainId = CHAIN_ID_REGTEST then .ok ()
  else do
    let expected ← pinnedHash chainId
    let hash ← crates.blockHash block
    guardNode (hash = expected) (.genesisMismatch expected hash)

/-! ### A fresh node -/

/-- The name of a public network's genesis file. -/
def genesisFileForChain (chainId : UInt32) : Option String :=
  if chainId = CHAIN_ID_MAINNET then some "genesis.json"
  else if chainId = CHAIN_ID_TESTNET then some "genesis-testnet.json"
  else none

/-- `expect`: an error becomes a panic. -/
def orPanic {α : Type} (message : String) : Except Failure α → Except Failure α
  | .ok a => .ok a
  | .error (.error _) => .error (.panic message)
  | .error (.panic m) => .error (.panic m)

/-- The network the first transaction of a block declares. -/
def declaredChainId (block : Block) : UInt32 :=
  match block.transactions with
  | tx :: _ => tx.chainId
  | [] => 0

/-- The block a fresh node starts from; `files` has the readable genesis files. -/
def freshGenesis (files : String → Option GenesisConfig) (config : NodeConfig) :
    Except Failure Block :=
  if config.chainId = CHAIN_ID_REGTEST then
    regtestGenesisBlock crates (config.rules.expectedVersion 0)
  else do
    let path ← okOr (genesisFileForChain config.chainId)
      (.panic ("No genesis file configured for network_id " ++ toString config.chainId.toNat))
    let genesis ← okOr (files path) (.panic "Failed to load genesis from genesis file")
    let block ← orPanic "Failed to load genesis from genesis file" (loadGenesis crates genesis)
    if declaredChainId block = config.chainId then .ok block
    else .error (.panic ("Genesis network mismatch: " ++ path ++ " declares chain_id " ++
      toString (declaredChainId block).toNat ++ ", node runs " ++ toString config.chainId.toNat))

/-- The hand-made credit of one genesis transaction. -/
def creditFresh (cache : StateCache) (tx : Transaction) : StateCache :=
  if tx.sender ≠ "genesis" then
    match tx.receiver with
    | some receiver => cache.credit receiver tx.value
    | none => cache
  else cache

def installFreshGenesis (files : String → Option GenesisConfig) :
    EStateM Failure Blockchain Unit := do
  let blockchain ← get
  let genesisBlock ← check (freshGenesis crates files blockchain.toNodeConfig)
  check (orPanic "Genesis validation failed" (validateGenesis crates genesisBlock blockchain.chainId))
  modify fun blockchain => { blockchain with chain := blockchain.chain ++ [genesisBlock] }
  modify fun blockchain =>
    { blockchain with balances := genesisBlock.transactions.foldl creditFresh blockchain.balances }

end

end Strangecoin
