import Strangecoin.ApplyBlock

/-! # Rolling a block back

`unapply_block` walks the transactions of a block backwards and reverses each one
with the undo records the block left.  Whether a creation or a call had succeeded
is read from the receipts in the state, which are those of the **last applied**
block only; a receipt that is not found counts as a success.
-/
namespace Strangecoin
namespace State

def debitReceiver (s : State) (tx : TransferTx) : Except CoreError State :=
  s.debit tx.receiver tx.amount

def creditSender (s : State) (tx : TransferTx) : Except CoreError State :=
  s.credit tx.sender tx.amount

def decrementNonce (s : State) (tx : TransferTx) : Except CoreError State :=
  .ok (s.setNonce tx.sender (s.getNonce tx.sender - 1))

/-- One move of a trail taken back: the payee first. -/
def unmoveValue (s : State) (transfer : ValueTransfer) : Except CoreError State := do
  let s ← s.debit transfer.payee transfer.amount
  s.credit transfer.payer transfer.amount

/-- Take back a trail, the last move first. -/
def reverseValueTransfers (s : State) (transfers : List ValueTransfer) : Except CoreError State :=
  transfers.reverse.foldlM unmoveValue s

/-! ### Storage -/

/-- Restore one slot. -/
def restoreSlot (storage : ContractStorageMap) (e : StorageUndoEntry) : ContractStorageMap :=
  let slots := storage[e.1]?.getD ∅
  storage.insert e.1 (match e.2.2 with
    | some value => slots.insert e.2.1 value
    | none => slots.erase e.2.1)

/-- Drop a contract's storage if nothing is left of it and recompute its root. -/
def refreshStorage (blake3 : List UInt8 → Digest) (s : State) (contract : String) : State :=
  let storage :=
    if s.contractStorage[contract]?.any (fun slots => slots.isEmpty) then
      s.contractStorage.erase contract
    else s.contractStorage
  let root := (storage[contract]?.map (contractStorageRoot blake3)).getD zeroDigest
  { s with contractStorage := storage }.setStorageRoot contract root

/-- Reverse the storage writes of one transaction and drop their record. -/
def unapplyCallStorage (blake3 : List UInt8 → Digest) (s : State) (txid : Digest) : State :=
  match s.storageUndo[txid]? with
  | none => s
  | some entries =>
    let s := { s with
      storageUndo := s.storageUndo.erase txid
      contractStorage := entries.foldl restoreSlot s.contractStorage }
    (entries.map (fun e => e.1)).dedup.foldl (refreshStorage blake3) s

/-- Whether the receipts in the state let the transaction count as successful. -/
def countsAsSuccess (s : State) (txid : Digest) : Bool :=
  ((s.receipts.find? (fun r => r.txid == txid)).map (fun r => r.status == .success)).getD true

end State

section
variable (crates : Crates)

def unapplyTransfer (s : State) (tx : TransferTx) : Except CoreError State :=
  if tx.isCoinbase then s.debitReceiver tx
  else do
    let s ← s.decrementNonce tx
    let s ← s.debitReceiver tx
    s.creditSender tx

/-- The moves of a creation taken back: if it counts as successful, the constructor's
trail and then the endowment.  Its record goes in any case. -/
def reverseCreate (s : State) (create : CreateTx) (wasSuccess : Bool) : Except CoreError State :=
  let txid := crates.txid (.create create)
  let record := s.valueTransfersUndo[txid]?
  let s := { s with valueTransfersUndo := s.valueTransfersUndo.erase txid }
  if wasSuccess then do
    let s ← s.reverseValueTransfers (record.getD [])
    s.credit create.sender create.endowment
  else .ok s

def unapplyCreate (s : State) (create : CreateTx) (chainId : UInt32) : Except CoreError State := do
  let txid := crates.txid (.create create)
  let nonce ← okOr (checkedSub (s.getNonce create.sender) 1) CoreError.stateOverflow
  let address ← crates.deriveContractAddress create.sender nonce chainId
  let wasSuccess := s.countsAsSuccess txid
  let s := s.unapplyCallStorage crates.blake3 txid
  let s ← reverseCreate crates s create wasSuccess
  let s := s.setAccount address Account.default
  let s := { s with contractStorage := s.contractStorage.erase address }
  return s.setNonce create.sender nonce

/-- The moves of a call taken back, if it counts as successful: the recorded trail,
or without a record the top-level move. -/
def reverseCall (s : State) (call : CallTx) : Except CoreError State :=
  let txid := crates.txid (.call call)
  if s.countsAsSuccess txid then
    match s.valueTransfersUndo[txid]? with
    | some transfers =>
      State.reverseValueTransfers
        { s with valueTransfersUndo := s.valueTransfersUndo.erase txid } transfers
    | none => s.reverseValueTransfers (topLevelMove call)
  else .ok s

def unapplyCall (s : State) (call : CallTx) : Except CoreError State := do
  let txid := crates.txid (.call call)
  let nonce ← okOr (checkedSub (s.getNonce call.sender) 1) CoreError.stateOverflow
  let s := s.setNonce call.sender nonce
  let s ← reverseCall crates s call
  return s.unapplyCallStorage crates.blake3 txid

def unapplyTx (chainId : UInt32) (s : State) (tx : Transaction) : Except CoreError State :=
  match tx with
  | .transfer tx => unapplyTransfer s tx
  | .create create => unapplyCreate crates s create chainId
  | .call call => unapplyCall crates s call

def unapplyGenesisTx (s : State) (tx : Transaction) : Except CoreError State :=
  match tx with
  | .transfer tx => s.debitReceiver tx
  | _ => .error (.unsupportedTxType "create/call transactions are not supported at genesis")

/-- The state before a block, as far as the records reach. -/
def unapplyBlock (s : State) (block : Block) (chainId : UInt32) : Except CoreError State := do
  let s ←
    if block.index = 0 then block.transactions.reverse.foldlM unapplyGenesisTx s
    else block.transactions.reverse.foldlM (unapplyTx crates chainId) s
  return { s with receipts := [] }

end

end Strangecoin
