import Strangecoin.Vm

/-! # Canonical encodings, transaction ids and addresses

The wire forms that are hashed: a transaction id is the digest of the signed
encoding, a contract address is the bech32m form of a digest of the creator and
its nonce.

The hash function, the bech32 codec and the curve are third-party crates and are
parameters of the model (`Crates`).
-/
namespace Strangecoin

/-- The third-party functions the core calls. -/
structure Crates where
  /-- `blake3::hash`. -/
  blake3 : List UInt8 → Digest
  /-- `bech32::encode::<Bech32m>` of a payload under a human-readable part. -/
  bech32Encode : String → List UInt8 → Except String String
  /-- `bech32::decode`: the human-readable part and the payload. -/
  bech32Decode : String → Option (String × List UInt8)
  /-- `secp256k1::PublicKey::from_slice`, with the compressed form of the key. -/
  publicKeyFromSlice : List UInt8 → Except String (List UInt8)
  /-- `RecoverableSignature::from_compact` of the first 64 bytes with the last one
  as the recovery id, followed by `recover_ecdsa` of the digest; the key in its
  compressed form. -/
  recoverEcdsa : Digest → List UInt8 → Option (List UInt8)

/-! ### Encodings -/

def FORMAT_VERSION : UInt8 := 7
def TX_TAG_TRANSFER : UInt8 := 0
def TX_TAG_CREATE : UInt8 := 1
def TX_TAG_CALL : UInt8 := 2

/-- A byte string with its length as a big-endian `u32` in front. -/
def writeBytes (b : List UInt8) : List UInt8 := toBeBytes32 (UInt32.ofNat b.length) ++ b

def writeString (s : String) : List UInt8 := writeBytes (asBytes s)

mutual
/-- The canonical name of an ABI type. -/
def AbiType.canonicalName : AbiType → String
  | .uint n => "uint" ++ toString n.toNat
  | .int n => "int" ++ toString n.toNat
  | .bool => "bool"
  | .address => "address"
  | .bytes => "bytes"
  | .string => "string"
  | .array elem => elem.canonicalName ++ "[]"
  | .fixedArray elem len => elem.canonicalName ++ "[" ++ toString len ++ "]"
  | .tuple elems => "(" ++ ",".intercalate (canonicalNames elems) ++ ")"

def AbiType.canonicalNames : List AbiType → List String
  | [] => []
  | elem :: elems => elem.canonicalName :: canonicalNames elems
end

def encodeConstructorParams (params : List AbiParam) : String :=
  ",".intercalate (params.map (fun p => p.paramType.canonicalName))

def serializeTransaction (tx : Transaction) : List UInt8 :=
  FORMAT_VERSION :: match tx with
  | .transfer t =>
    TX_TAG_TRANSFER :: (writeString t.sender ++ writeString t.receiver ++ toBeBytes t.amount ++
      toBeBytes t.fee ++ toBeBytes t.nonce ++ toBeBytes32 t.chainId ++
      [if t.isCoinbase then 1 else 0])
  | .create t =>
    TX_TAG_CREATE :: (writeString t.sender ++ writeBytes t.initCode ++ writeBytes t.initArgs ++
      writeString (encodeConstructorParams t.constructorParams) ++ toBeBytes t.endowment ++
      toBeBytes t.gasLimit ++ toBeBytes t.fee ++ toBeBytes t.nonce ++ toBeBytes32 t.chainId)
  | .call t =>
    TX_TAG_CALL :: (writeString t.sender ++ writeString t.receiver ++ writeBytes t.data ++
      toBeBytes t.value ++ toBeBytes t.gasLimit ++ toBeBytes t.fee ++ toBeBytes t.nonce ++
      toBeBytes32 t.chainId)

def serializeTransactionSigned (tx : Transaction) : List UInt8 :=
  serializeTransaction tx ++ writeBytes tx.signature

def serializeLog (log : Log) : List UInt8 :=
  writeString log.address ++ toBeBytes32 (UInt32.ofNat log.topics.length) ++
    log.topics.flatMap Vector.toList ++ writeBytes log.data

def serializeValueTransfer (transfer : ValueTransfer) : List UInt8 :=
  writeString transfer.payer ++ writeString transfer.payee ++ toBeBytes transfer.amount

def serializeReceipt (receipt : Receipt) : List UInt8 :=
  FORMAT_VERSION :: (receipt.txid.toList ++ toBeBytes receipt.blockHeight ++
    toBeBytes32 receipt.txIndex ++ toBeBytes receipt.gasUsed ++ [receipt.status.canonicalByte] ++
    toBeBytes32 (UInt32.ofNat receipt.logs.length) ++ receipt.logs.flatMap serializeLog ++
    toBeBytes32 (UInt32.ofNat receipt.valueTransfers.length) ++
    receipt.valueTransfers.flatMap serializeValueTransfer)

namespace Crates
variable (crates : Crates)

/-- Transaction id: the digest of the signed encoding. -/
def txid (tx : Transaction) : Digest := crates.blake3 (serializeTransactionSigned tx)

/-! ### Addresses -/

end Crates

def CHAIN_ID_MAINNET : UInt32 := 1
def CHAIN_ID_TESTNET : UInt32 := 2
def CHAIN_ID_REGTEST : UInt32 := 3

def hrpForNetwork (networkId : UInt32) : Except CoreError String :=
  if networkId = CHAIN_ID_MAINNET then .ok "sc"
  else if networkId = CHAIN_ID_TESTNET then .ok "tsc"
  else if networkId = CHAIN_ID_REGTEST then .ok "rsc"
  else .error (.unknownNetworkId networkId)

/-- What is hashed into the address of the contract deployed at `nonce`. -/
def contractAddressInput (creator : String) (nonce : UInt64) : List UInt8 :=
  asBytes "sc-contract-addr" ++ asBytes creator ++ toBeBytes nonce

/-- The address of the contract a creator deploys at a nonce.  `Hrp::parse`
accepts the three network parts. -/
def Crates.deriveContractAddress (crates : Crates) (creator : String) (nonce : UInt64)
    (networkId : UInt32) : Except CoreError String := do
  let hrp ← hrpForNetwork networkId
  match crates.bech32Encode hrp (crates.blake3 (contractAddressInput creator nonce)).toList with
  | .ok address => .ok address
  | .error message => .error (.bech32EncodeError message)

/-- The public key and the network an address encodes. -/
def Crates.decodeAddress (crates : Crates) (s : String) :
    Except CoreError (List UInt8 × UInt32) := do
  let (hrp, data) ← okOr (crates.bech32Decode s) CoreError.invalidAddressChecksum
  let networkId ←
    if hrp = "sc" then .ok CHAIN_ID_MAINNET
    else if hrp = "tsc" then .ok CHAIN_ID_TESTNET
    else if hrp = "rsc" then .ok CHAIN_ID_REGTEST
    else .error (.unknownAddressHrp hrp)
  match crates.publicKeyFromSlice data with
  | .ok pk => .ok (pk, networkId)
  | .error e => .error (.invalidAddressFormat ("Invalid public key: " ++ e))

end Strangecoin
