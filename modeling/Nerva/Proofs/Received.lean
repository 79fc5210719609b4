import Nerva.Proofs.WalletScan

/-!
# Money received

What `process_new_transaction` counts as received is what its outputs add to the amounts held,
whatever keys they repeat. The loop over the inputs can still change an amount: an input that
carries one other than the transfer it spends has its amount taken over.
-/

namespace Nerva

open Throwing

/-- The totals never differ, and the total of a transaction in a block is, in 64 bits, what it has
added to the amounts held, unless an input carries another amount than the transfer it spends. -/
theorem processNewTransaction_records (acct : Account) (w : Wallet) (t : NewTransaction) :
    (∀ e, processNewTransaction acct w t = .error e → e.2 ≠ .exit) ∧
    ∀ p, processNewTransaction acct w t = .ok p → t.pool = false →
      ∃ (p₁ : Processing) (n : ℕ), receiveOutputs acct w t = .ok p₁ ∧
        p₁.wallet.held = w.held + n ∧ p.totalReceived1 = UInt64.ofNat n ∧
        ((∀ input ∈ t.tx.vin, AmountAgrees p₁.wallet input) → p.wallet.held = w.held + n) := by
  have hensures : Ensures _ _ (processNewTransaction acct w t) := processNewTransaction_ensures
  constructor
  · intro e he
    rw [he] at hensures
    exact hensures.2
  · intro p hp hpool
    rw [hp] at hensures
    obtain ⟨-, p₁, hp₁, hbalanced, htotal, hsame⟩ := hensures
    obtain ⟨n, hheld, hn⟩ := hbalanced.recorded hpool
    exact ⟨p₁, n, hp₁, hheld, htotal.trans hn, fun hagrees => (hsame hagrees).held.trans hheld⟩

def repeatedKeys : NewTransaction :=
  plainCall 5 50 [] [⟨10, .toKey 101⟩, ⟨3, .toKey 201⟩, ⟨8, .toKey 201⟩]

theorem processNewTransaction_records_repeatedKeys : ∃ p,
    processNewTransaction plainAccount plainWallet repeatedKeys = .ok p ∧
      p.totalReceived1 = 18 ∧ p.wallet.held = plainWallet.held + 18 := by
  obtain ⟨p, hp, htotal⟩ := exists_ok_of_any (p := fun p => p.totalReceived1 == 18)
    (by decide +kernel : (processNewTransaction plainAccount plainWallet
      repeatedKeys).toOption.any _ = true)
  obtain ⟨p₁', hp₁', hheld'⟩ := exists_ok_of_any
    (p := fun p => p.wallet.held == plainWallet.held + 18)
    (by decide +kernel : (receiveOutputs plainAccount plainWallet
      repeatedKeys).toOption.any _ = true)
  obtain ⟨p₁, n, hp₁, hheld, hn, hsame⟩ :=
    (processNewTransaction_records plainAccount plainWallet repeatedKeys).2 p hp rfl
  obtain rfl : p₁' = p₁ := Except.ok.inj (hp₁'.symm.trans hp₁)
  have h18 : p₁'.wallet.held = plainWallet.held + 18 := by simpa using hheld'
  refine ⟨p, hp, by simpa using htotal, ?_⟩
  rw [hsame (by simp [repeatedKeys, plainCall, plainTransaction]), ← hheld, h18]

def spentWallet : Wallet :=
  { plainWallet with
    transfers := [{ TransferDetails.blank with
      tx := (plainTransaction 50 [] [⟨10, .toKey 101⟩]).toTransactionPrefix
      amount := 10, keyImage := 1101, keyImageKnown := true }]
    keyImages := Function.update plainWallet.keyImages 1101 (some 0)
    pubKeys := Function.update plainWallet.pubKeys 101 (some 0) }

/-- It is spent by an input that says 4. -/
theorem processNewTransaction_spends_other_amount : ∃ p,
    processNewTransaction plainAccount spentWallet (plainCall 6 60 [.toKey 4 [] 1101] []) = .ok p ∧
      UInt64.ofNat p.wallet.held ≠ UInt64.ofNat spentWallet.held + p.totalReceived1 := by
  obtain ⟨p, hp, hne⟩ := exists_ok_of_any (p := fun p => decide
      (UInt64.ofNat p.wallet.held ≠ UInt64.ofNat spentWallet.held + p.totalReceived1))
    (by decide : (processNewTransaction plainAccount spentWallet
      (plainCall 6 60 [.toKey 4 [] 1101] [])).toOption.any _ = true)
  exact ⟨p, hp, by simpa using hne⟩

end Nerva
