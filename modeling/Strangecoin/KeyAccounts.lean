import Strangecoin.CodeRegistry

/-! # Accounts with a key

An address a transaction can be signed for encodes a public key; the address of a
contract encodes a digest.  The two never meet, so what a block does to the account of a
key is known without knowing the executor.
-/
namespace Strangecoin

/-! ### Addresses -/

/-- What addresses take from `bech32` and `secp256k1`: an encoded payload is decoded
again, and a public key has 33 or 65 bytes. -/
structure AddressCodec (crates : Crates) : Prop where
  decode_encode : ∀ network hrp payload address, hrpForNetwork network = .ok hrp →
    crates.bech32Encode hrp payload = .ok address →
    crates.bech32Decode address = some (hrp, payload)
  key_length : ∀ bytes pk, crates.publicKeyFromSlice bytes = .ok pk →
    bytes.length = 33 ∨ bytes.length = 65

/-- An address that encodes a public key. -/
def HasKey (crates : Crates) (a : String) : Prop := ∃ key, crates.decodeAddress a = .ok key

section
variable {crates : Crates} {chainId : UInt32} {a : String}

/-- The signature of an accepted transaction is that of its sender's key. -/
theorem recovered_of_verify {tx : Transaction} (hflag : tx.isCoinbase = false)
    (h : verifyTransaction crates tx = .ok ()) : ∃ key : List UInt8 × UInt32,
      recoverPubkeyFromSig crates tx.signature (serializeTransaction tx) = .ok key.1 ∧
      crates.decodeAddress tx.sender = .ok key := by
  unfold verifyTransaction at h
  rw [if_neg (by simp [hflag])] at h
  obtain ⟨⟨⟩, -, h⟩ := bind_eq_ok.mp h
  obtain ⟨pk, hrecover, h⟩ := bind_eq_ok.mp h
  obtain ⟨key, hdecode, h⟩ := bind_eq_ok.mp h
  exact ⟨key, guardWith_eq_ok.mp h ▸ hrecover, hdecode⟩

theorem hasKey_of_verify {tx : Transaction} (hflag : tx.isCoinbase = false)
    (h : verifyTransaction crates tx = .ok ()) : HasKey crates tx.sender := by
  obtain ⟨key, -, hdecode⟩ := recovered_of_verify hflag h
  exact ⟨key, hdecode⟩

theorem slice_of_decodeAddress {key : List UInt8 × UInt32}
    (h : crates.decodeAddress a = .ok key) :
    ∃ hrp data, crates.bech32Decode a = some (hrp, data) ∧
      crates.publicKeyFromSlice data = .ok key.1 := by
  unfold Crates.decodeAddress at h
  obtain ⟨⟨hrp, data⟩, hdecode, h⟩ := bind_eq_ok.mp h
  refine ⟨hrp, data, okOr_eq_ok.mp hdecode, ?_⟩
  cases hslice : crates.publicKeyFromSlice data with
  | ok pk =>
    simp only [hslice] at h
    repeat' split at h
    all_goals cases h <;> rfl
  | error message =>
    -- whatever the network, the payload is no key
    simp only [hslice] at h
    repeat' split at h
    all_goals cases h

theorem encodeAddress_ok {pk : List UInt8} : crates.encodeAddress pk chainId = .ok a ↔
    ∃ hrp, hrpForNetwork chainId = .ok hrp ∧ crates.bech32Encode hrp pk = .ok a := by
  unfold Crates.encodeAddress
  rw [bind_eq_ok]
  refine exists_congr fun hrp => and_congr_right fun _ => ?_
  cases crates.bech32Encode hrp pk <;> simp

/-- **A contract address has no key**: its payload is a digest of 32 bytes. -/
theorem AddressCodec.derived_keyless (h : AddressCodec crates) {creator address : String}
    {nonce : UInt64} (hderive : crates.deriveContractAddress creator nonce chainId = .ok address) :
    ¬ HasKey crates address := by
  rintro ⟨key, hkey⟩
  obtain ⟨hrp, hhrp, hencode⟩ := encodeAddress_ok.mp hderive
  obtain ⟨hrp', data, hdecode, hslice⟩ := slice_of_decodeAddress hkey
  rw [h.decode_encode _ _ _ _ hhrp hencode] at hdecode
  obtain ⟨-, rfl⟩ := Prod.mk.inj (Option.some.inj hdecode)
  rcases h.key_length _ _ hslice with hlength | hlength <;> simp at hlength

theorem AddressCodec.ne_derived (h : AddressCodec crates) (ha : HasKey crates a)
    {creator address : String} {nonce : UInt64}
    (hderive : crates.deriveContractAddress creator nonce chainId = .ok address) : a ≠ address := by
  rintro rfl
  exact h.derived_keyless hderive ha

end

/-! ### Nonces -/

namespace State
variable {s s' : State}

theorem getNonce_credit {a : String} {x : UInt64} (h : s.credit a x = .ok s') :
    s'.getNonce = s.getNonce := by
  obtain ⟨b, -, rfl⟩ := credit_ok.mp h
  exact getNonce_setBalance_eq s a b

theorem getNonce_debit {a : String} {x : UInt64} (h : s.debit a x = .ok s') :
    s'.getNonce = s.getNonce := by
  obtain ⟨b, -, rfl⟩ := debit_ok.mp h
  exact getNonce_setBalance_eq s a b

theorem getNonce_moveValue {t : ValueTransfer} (h : s.moveValue t = .ok s') :
    s'.getNonce = s.getNonce := by
  obtain ⟨m, hdebit, hcredit⟩ := moveValue_ok.mp h
  exact (getNonce_credit hcredit).trans (getNonce_debit hdebit)

theorem getNonce_commitValueTransfers {txid : Digest} {trail : List ValueTransfer}
    (h : s.commitValueTransfers txid trail = .ok s') : s'.getNonce = s.getNonce := by
  rcases commitValueTransfers_ok.mp h with ⟨-, rfl⟩ | ⟨-, m, hrun, rfl⟩
  · rfl
  · exact run_invariant (I := fun m => m.getNonce = s.getNonce)
      (fun m t m' hm hstep => (getNonce_moveValue hstep).trans hm) rfl hrun

theorem getNonce_setStorageRoot (s : State) (a : String) (root : Digest) :
    (s.setStorageRoot a root).getNonce = s.getNonce := by
  funext b
  rw [getNonce_eq, account_setStorageRoot, getNonce_eq]
  split
  · subst b
    cases s.account a <;> rfl
  · rfl

theorem getNonce_flushStorageWrites (s : State) (blake3 : List UInt8 → Digest)
    (result : ExecutionResult) (txid : Digest) :
    (s.flushStorageWrites blake3 result txid).getNonce = s.getNonce :=
  flushStorageWrites_invariant (I := fun t => t.getNonce = s.getNonce)
    (fun _ _ a root ht => (getNonce_setStorageRoot _ a root).trans ht)
    (fun _ _ ht => ht) rfl blake3 result txid

end State

section
variable {crates : Crates} {chainId : UInt32} {s s' : State} {tx : Transaction} {frame : Frame}
  {a : String}

theorem getNonce_installCreate {create : CreateTx} {address : String} (hne : a ≠ address) :
    (installCreate crates s create address).getNonce a =
      if a = create.sender then s.getNonce a + 1 else s.getNonce a := by
  rw [installCreate, State.getNonce_setNonce, State.getNonce_setAccount, if_neg hne]
  split
  · subst a
    rfl
  · rfl

/-- **A transaction raises the nonce of its sender**, and no other key's. -/
theorem TxEffect.nonce (h : TxEffect crates chainId s tx frame s') (hcodec : AddressCodec crates)
    (ha : HasKey crates a) :
    s'.getNonce a = if a = tx.sender then s.getNonce a + 1 else s.getNonce a := by
  have hraised : ∀ sender, (s.setNonce sender (s.getNonce sender + 1)).getNonce a =
      if a = sender then s.getNonce a + 1 else s.getNonce a := by
    intro sender
    rw [State.getNonce_setNonce]
    split
    · subst a
      rfl
    · rfl
  cases h with
  | transfer _ happly =>
    obtain ⟨s₁, s₂, hdebit, hcredit, rfl⟩ := applyTransfer_ok.mp happly
    rw [State.getNonce_setNonce, State.getNonce_credit hcredit, State.getNonce_debit hdebit,
      ← State.getNonce_setNonce]
    exact hraised _
  | createOk haddress _ _ _ hdebit hcommit =>
    rw [State.getNonce_commitValueTransfers hcommit, State.getNonce_debit hdebit,
      State.getNonce_flushStorageWrites]
    exact getNonce_installCreate (hcodec.ne_derived ha haddress)
  | createFailed haddress _ _ _ =>
    have hne := hcodec.ne_derived ha haddress
    rw [State.getNonce_setAccount, if_neg hne]
    exact getNonce_installCreate hne
  | callPlain _ _ hcommit =>
    rw [State.getNonce_commitValueTransfers hcommit]
    exact hraised _
  | callOk _ _ _ hcommit =>
    rw [State.getNonce_flushStorageWrites, State.getNonce_commitValueTransfers hcommit]
    exact hraised _
  | callFailed => exact hraised _

/-! ### Contracts -/

end

end Strangecoin
