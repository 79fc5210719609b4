import Nerva.Lib.Runs
import Nerva.WalletImport
import Nerva.Proofs.Positions

/-!
# Positions after imports

An import overwrites transfers in place and writes positions for what it brings; it erases none. So
the positions stay right where all it writes over had the key and the key image it is given now, and
where it cuts nothing off.
-/

namespace Nerva

open Checks Throwing List Ensures

variable {acct : Account} {w w' : Wallet} {idx offset : ℕ} {td : TransferDetails}
  {m' : PublicKey → Option ℕ} {ki : KeyImage} {selected : Option (ℕ → Bool)}

/-- Overwriting a transfer with one of the same keys keeps the maps right. -/
theorem Indexed.write (h : Indexed w) {td' : TransferDetails} {m : KeyImage → Option ℕ}
    (hold : w.transfers[idx]? = some td) (hkey : ∀ key, td.HasKey key → td'.HasKey key)
    (himage : ∀ ki, td.HasImage ki → td'.HasImage ki)
    (hm : ∀ ki i, m ki = some i → w.keyImages ki = some i ∨ i = idx ∧ td'.HasImage ki)
    (hm' : ∀ key i, m' key = some i → w.pubKeys key = some i ∨ i = idx ∧ td'.HasKey key) :
    Indexed { w with transfers := w.transfers.set idx td', keyImages := m, pubKeys := m' } := by
  have hlt : idx < w.transfers.length := (List.getElem?_eq_some_iff.mp hold).1
  have hnew : (w.transfers.set idx td')[idx]? = some td' := getElem?_set_self hlt
  -- what was right before is right still, at `idx` because the new transfer has all the old one had
  have hstill : ∀ {P : TransferDetails → Prop} {i : ℕ}, (P td → P td') →
      (∃ t, w.transfers[i]? = some t ∧ P t) →
        ∃ t, (w.transfers.set idx td')[i]? = some t ∧ P t := by
    rintro P i hP ⟨t, ht, hPt⟩
    by_cases hi : idx = i
    · subst hi
      obtain rfl : td = t := Option.some.inj (hold.symm.trans ht)
      exact ⟨td', hnew, hP hPt⟩
    · exact ⟨t, (getElem?_set_ne hi).trans ht, hPt⟩
  refine ⟨fun key i hi => ?_, fun ki i hi => ?_, h.cold⟩
  · rcases hm' key i hi with hi | ⟨rfl, hhas⟩
    · exact hstill (hkey key) (h.pubKeys key i hi)
    · exact ⟨td', hnew, hhas⟩
  · rcases hm ki i hi with hi | ⟨rfl, hhas⟩
    · exact hstill (himage ki) (h.keyImages ki i hi)
    · exact ⟨td', hnew, hhas⟩

theorem update_some_cases {κ : Type} [DecidableEq κ] {m : κ → Option ℕ} {k k' : κ} {i : ℕ}
    (h : Function.update m k (some idx) k' = some i) : m k' = some i ∨ i = idx ∧ k' = k := by
  rw [Function.update_apply] at h
  split_ifs at h with heq
  · exact .inr ⟨(Option.some.inj h).symm, heq⟩
  · exact .inl h

/-- The output may be written over the transfer: it has the same key, and the same key image unless
none is known. -/
def Overwrites (acct : Account) (org td : TransferDetails) : Prop :=
  td.getPublicKey = org.getPublicKey ∧
  if alreadyImported acct org td then td.keyImageKnown = true ∧ td.keyImagePartial = false
  else ∀ key derivation i index ki, org.HasKey key → org.HasImage org.keyImage →
    acct.generateKeyImage key derivation i index = some (key, ki) → ki = org.keyImage

/-- An imported output gets the key image that the account generates. -/
theorem importedKeyImage_ensures (acct : Account) (w : Wallet) (td : TransferDetails)
    {Q : WalletError → Prop} (hQ : ∀ e, Q e) :
    Ensures (fun r => td.HasKey r.1 ∧ ∃ derivation i index,
      acct.generateKeyImage r.1 derivation i index = some r.2) Q (importedKeyImage acct w td) := by
  refine require_bind (fun _ => hQ _) fun _ => ?_
  refine (mono (P := fun _ => True) (Q := fun _ => True) ?_ (fun _ => id) fun e _ =>
    hQ e).bind fun txPubKey _ => ?_
  · cases getTxPubKeyFromReceivedOuts acct w td <;> trivial
  refine demand_bind (fun _ => hQ _) fun out hout => ?_
  refine demand_bind (fun _ => hQ _) fun outKey hkey => ?_
  refine demand_bind (fun _ => hQ _) fun r hr => ?_
  obtain ⟨received, -, hr⟩ := Option.bind_eq_some_iff.mp hr
  exact ⟨by simp [TransferDetails.HasKey, TransferDetails.getPublicKey, hout, hkey], _, _, _, hr⟩

/-- Importing one output. -/
theorem Indexed.importOutput (h : Indexed w) {originalSize : ℕ}
    (hsafe : ∀ org, w.transfers[idx]? = some org →
      if idx < originalSize then Overwrites acct org td else org = .blank) :
    Ensures (fun w' => Indexed w' ∧ ∀ j, idx < j → w'.transfers[j]? = w.transfers[j]?)
      (fun e => Indexed e.1) (Nerva.importOutput acct originalSize w (td, idx)) := by
  refine demand_bind (fun _ => h) fun org horg => ?_
  have hsafe := hsafe org horg
  split
  · next hpresent =>
    rw [if_pos hpresent.1, Overwrites, if_pos hpresent.2] at hsafe
    obtain ⟨hkey, hknown, hwhole⟩ := hsafe
    have hset : w.modifyTransfer idx (fun _ => td) =
        { w with transfers := w.transfers.set idx td } := by
      rw [Wallet.modifyTransfer, modify_eq_set_getElem?]
      simp [horg]
    rw [hset]
    refine ⟨h.write horg (fun key hk => hkey.trans hk) (fun ki hki => ?_) (fun _ _ => .inl)
      fun _ _ => .inl, fun j hj => getElem?_set_ne (by omega)⟩
    exact ⟨hpresent.2.2.2.1.trans hki.1, hknown, hwhole⟩
  · next hpresent =>
    have himage := importedKeyImage_ensures acct w td (Q := fun _ => True) fun _ => trivial
    refine (himage.mapError (R := fun e : Thrown => Indexed e.1) fun _ _ => h).bind ?_
    rintro ⟨outKey, pub, ki⟩ ⟨houtKey, derivation, i, index, hki⟩
    obtain ⟨table, labels, hexpand, -⟩ := expandSubaddresses_eq acct w td.subaddrIndex
    rw [hexpand]
    have hw : Indexed { w with subaddresses := table, subaddressLabels := labels } :=
      ⟨h.pubKeys, h.keyImages, h.cold⟩
    refine require_bind (fun _ => hw) fun hpub => ?_
    refine ⟨hw.write horg ?_ ?_ ?_ ?_, fun j hj => getElem?_set_ne (by omega)⟩
    · intro key hkey
      split_ifs at hsafe
      · exact hsafe.1.trans hkey
      · subst hsafe
        cases hkey
    · intro ki' hki'
      split_ifs at hsafe with hlt
      · rw [Overwrites, if_neg fun himported => hpresent ⟨hlt, himported⟩] at hsafe
        obtain ⟨hsame, himages⟩ := hsafe
        have horgKey : org.HasKey outKey := hsame.symm.trans houtKey
        refine ⟨?_, rfl, rfl⟩
        rw [← hki'.1]
        exact himages outKey derivation i index ki horgKey ⟨rfl, hki'.2⟩ (by rw [hki, hpub])
      · subst hsafe
        cases hki'.2.1
    · intro ki' i' hi'
      exact (update_some_cases hi').imp_right fun h => ⟨h.1, h.2.symm, rfl, rfl⟩
    · intro key i' hi'
      refine (update_some_cases hi').imp_right ?_
      rintro ⟨hidx, rfl⟩
      exact ⟨hidx, houtKey⟩

theorem Indexed.resized (h : Indexed w) {n : ℕ} (hn : w.transfers.length ≤ n) :
    Indexed { w with
      transfers := (resize w.transfers n .blank).mapIdx fun i td =>
        if i < offset then { td with keyImageRequest := false } else td } := by
  have hstill : ∀ {P : TransferDetails → Prop} {i : ℕ},
      (∀ td, P td → P { td with keyImageRequest := false }) →
      (∃ t, w.transfers[i]? = some t ∧ P t) →
      ∃ t, ((resize w.transfers n .blank).mapIdx fun i td =>
        if i < offset then { td with keyImageRequest := false } else td)[i]? = some t ∧ P t := by
    rintro P i hP ⟨t, ht, hPt⟩
    have hi : (resize w.transfers n .blank)[i]? = some t := by
      rw [resize, take_of_length_le hn,
        getElem?_append_left (List.getElem?_eq_some_iff.mp ht).1, ht]
    rw [getElem?_mapIdx, hi]
    split_ifs
    · exact ⟨_, rfl, hP t hPt⟩
    · exact ⟨t, rfl, hPt⟩
  exact ⟨fun key i hi => hstill (fun _ => id) (h.pubKeys key i hi),
    fun ki i hi => hstill (fun _ => id) (h.keyImages ki i hi), h.cold⟩

/-- `import_outputs` keeps the maps right if what it overwrites is the same output. -/
theorem Indexed.importOutputs (h : Indexed w) {outputs : List TransferDetails}
    (hsafe : offset ≤ w.transfers.length → w.transfers.length ≤ offset + outputs.length ∧
      ∀ i td org, outputs[i]? = some td → w.transfers[offset + i]? = some org →
        Overwrites acct org td) :
    Ensures Indexed (fun e => Indexed e.1) (importOutputs acct w offset outputs) := by
  refine require_bind (fun _ => h) fun hoffset => ?_
  obtain ⟨hlen, hover⟩ := hsafe hoffset
  refine foldlM_zipIdx (fun w idx => w.transfers[idx]?) (R := fun idx td org =>
    if idx < w.transfers.length then Overwrites acct org td else org = .blank)
    (fun w₁ td idx h₁ hsafe₁ => h₁.importOutput hsafe₁) outputs offset _ (h.resized hlen) ?_
  intro i td org htd horg
  simp only [getElem?_mapIdx, resize, take_of_length_le hlen, not_lt.mpr
    (Nat.le_add_right offset i), if_false, Option.map_id'] at horg
  split_ifs with hlt
  · rw [getElem?_append_left hlt] at horg
    exact hover i td org htd horg
  · rw [getElem?_append_right (not_lt.mp hlt), getElem?_replicate] at horg
    split_ifs at horg
    exact (Option.some.inj horg).symm

/-- The transfer with a key image set. -/
def TransferDetails.withImage (td : TransferDetails) (keyImage : KeyImage) : TransferDetails :=
  { td with
    keyImage
    keyImageKnown := true
    keyImageRequest := false
    keyImagePartial := false }

theorem setKeyImage_eq (htd : w.transfers[idx]? = some td) (ki : KeyImage) : w.setKeyImage idx ki =
      { w with
        transfers := w.transfers.set idx (td.withImage ki)
        keyImages := Function.update w.keyImages ki (some idx) } := by
  rw [Wallet.setKeyImage, Wallet.modifyTransfer, modify_eq_set_getElem?]
  simp [htd, TransferDetails.withImage]

/-- A key image may be set unless another one is known. -/
theorem Indexed.setKeyImage (h : Indexed w) (htd : w.transfers[idx]? = some td)
    (hsafe : td.HasImage td.keyImage → ki = td.keyImage)
    (hm' : ∀ key i, m' key = some i → w.pubKeys key = some i ∨ i = idx ∧ td.HasKey key) :
    Indexed { w.setKeyImage idx ki with pubKeys := m' } := by
  rw [setKeyImage_eq htd]
  refine h.write htd (fun _ => id) ?_ ?_ hm'
  · intro ki' hki'
    exact ⟨(hsafe ⟨rfl, hki'.2⟩).trans hki'.1, rfl, rfl⟩
  · intro ki' i hi
    exact (update_some_cases hi).imp_right fun h => ⟨h.1, h.2.symm, rfl, rfl⟩

theorem setKeyImage_getElem? {j : ℕ} (htd : w.transfers[idx]? = some td) (ki : KeyImage)
    (hj : idx < j) : (w.setKeyImage idx ki).transfers[j]? = w.transfers[j]? := by
  rw [setKeyImage_eq htd]
  exact getElem?_set_ne (by omega)

theorem Indexed.importKeyImage (h : Indexed w)
    (hsafe : ∀ td, w.transfers[idx]? = some td → (selected.all fun s => s idx) = true →
      td.HasImage td.keyImage → ki = td.keyImage) :
    Ensures (fun w' => Indexed w' ∧ ∀ j, idx < j → w'.transfers[j]? = w.transfers[j]?)
      (fun e => Indexed e.1) (Nerva.importKeyImage selected w (ki, idx)) := by
  unfold Nerva.importKeyImage
  simp only
  split
  · exact ⟨h, fun _ _ => rfl⟩
  · next hselected =>
    refine demand_bind (fun _ => h) fun td htd => ?_
    have hall : (selected.all fun s => s idx) = true := by
      cases selected with
      | none => rfl
      | some s => simpa using hselected
    refine demand_bind (fun _ => h.setKeyImage htd (hsafe td htd hall) fun _ _ => .inl)
      fun key hkey => ⟨h.setKeyImage htd (hsafe td htd hall) fun key' i hi => ?_,
        fun j hj => setKeyImage_getElem? htd ki hj⟩
    refine (update_some_cases hi).imp_right ?_
    rintro ⟨hidx, rfl⟩
    exact ⟨hidx, hkey⟩

/-- `import_key_images` keeps the maps right if no known key image is replaced. -/
theorem Indexed.importKeyImages (h : Indexed w) {keyImages : List KeyImage}
    (hsafe : keyImages.length + offset ≤ w.transfers.length →
      ∀ i ki td, keyImages[i]? = some ki → w.transfers[offset + i]? = some td →
        (selected.all fun s => s (offset + i)) = true → td.HasImage td.keyImage →
          ki = td.keyImage) :
    Ensures Indexed (fun e => Indexed e.1) (importKeyImages w keyImages offset selected) := by
  unfold Nerva.importKeyImages
  split
  · exact h
  · next hfits =>
    exact foldlM_zipIdx (fun w idx => w.transfers[idx]?) (R := fun idx ki td =>
      (selected.all fun s => s idx) = true → td.HasImage td.keyImage → ki = td.keyImage)
      (fun w₁ ki idx h₁ hsafe₁ => h₁.importKeyImage hsafe₁) keyImages offset w h
      (hsafe (not_lt.mp hfits))

theorem Indexed.kept (h : Indexed w) {transfers : List TransferDetails}
    (hkept : List.Forall₂ Kept w.transfers transfers) : Indexed { w with transfers } :=
  h.altered rfl ⟨hkept, rfl, rfl⟩

theorem Indexed.spendTransfers (h : Indexed w) (height : ℕ) (input : TxIn) :
    Ensures Indexed (fun e => Indexed e.1) (spendTransfers height w input) := by
  unfold Nerva.spendTransfers
  split
  · split
    · exact h
    · refine demand_bind (fun _ => h) fun td _ => ?_
      refine require_bind (fun _ => h) fun _ => ?_
      exact h.kept (forall₂_kept_modify _ _ fun _ _ => ⟨rfl, rfl, rfl, rfl⟩)
  · exact h

theorem Indexed.setKeyImages : ∀ (l : List (KeyImage × Hash)) (w : Wallet) (offset : ℕ),
    Indexed w → l.length + offset ≤ w.transfers.length →
    (∀ i entry td, l[i]? = some entry → w.transfers[offset + i]? = some td →
      td.HasImage td.keyImage → entry.1 = td.keyImage) →
    Indexed ((l.zipIdx offset).foldl (fun w entry => w.setKeyImage entry.2 entry.1.1) w)
  | [], _, _, h, _, _ => h
  | entry :: l, w, offset, h, hlen, hsafe => by
    rw [zipIdx_cons, foldl_cons]
    rw [length_cons] at hlen
    obtain ⟨td, htd⟩ : ∃ td, w.transfers[offset]? = some td :=
      ⟨_, getElem?_eq_getElem (by omega)⟩
    refine setKeyImages l _ (offset + 1)
      (h.setKeyImage htd (hsafe 0 entry td rfl htd) fun _ _ => .inl) ?_
      fun i entry' td' hi htd' => ?_
    · rw [setKeyImage_eq htd, length_set]
      omega
    · rw [setKeyImage_getElem? htd _ (by omega), Nat.add_right_comm] at htd'
      exact hsafe (i + 1) entry' td' hi htd'

theorem Indexed.setSpents : ∀ (l : List (Bool × ℕ)) (w : Wallet), Indexed w →
    Indexed (l.foldl (fun w entry => w.modifyTransfer entry.2 fun td =>
      { td with spent := entry.1 }) w)
  | [], _, h => h
  | _ :: l, _, h => setSpents l _ (h.kept (forall₂_kept_modify _ _ fun _ _ => ⟨rfl, rfl, rfl, rfl⟩))

/-- The same of signed key images. -/
theorem Indexed.importSignedKeyImages (h : Indexed w) {signedKeyImages : List (KeyImage × Hash)}
    {checkSpent : Bool} {answer : Option SpentAnswer}
    (hsafe : signedKeyImages.length + offset ≤ w.transfers.length →
      ∀ i entry td, signedKeyImages[i]? = some entry → w.transfers[offset + i]? = some td →
        td.HasImage td.keyImage → entry.1 = td.keyImage) :
    Ensures Indexed (fun e => Indexed e.1)
      (importSignedKeyImages acct w signedKeyImages offset checkSpent answer) := by
  refine require_bind (fun _ => h) fun hoffset => ?_
  refine require_bind (fun _ => h) fun hlen => ?_
  have hfits : signedKeyImages.length + offset ≤ w.transfers.length := by omega
  refine bind (P := fun _ => True) ?_ fun _ _ => ?_
  · cases List.forM (signedKeyImages.zipIdx offset) (checkSignedKeyImage acct w) with
    | ok => trivial
    | error => exact h
  have hset := Indexed.setKeyImages signedKeyImages w offset h hfits (hsafe hfits)
  split
  · exact hset
  · refine demand_bind (fun _ => hset) fun answer _ => ?_
    refine require_bind (fun _ => hset) fun _ => ?_
    refine foldlM _ _ (Indexed.setSpents _ _ hset) fun w₁ tx _ h₁ => ?_
    refine demand_bind (fun _ => h₁) ?_
    rintro ⟨height, vin⟩ -
    exact foldlM _ _ h₁ fun w₂ input _ h₂ => h₂.spendTransfers height input

/-- Every position is below the number of transfers, and the transfer there is the right one. -/
structure Wallet.PositionsRight (w : Wallet) : Prop where
  keyImages : ∀ ki idx, w.keyImages ki = some idx →
    ∃ td, w.transfers[idx]? = some td ∧ td.keyImage = ki
  pubKeys : ∀ key idx, w.pubKeys key = some idx →
    ∃ td, w.transfers[idx]? = some td ∧ td.getPublicKey = some key

/-- Maps that point to transfers with these keys have the positions right. -/
theorem Indexed.positionsRight (h : Indexed w) : w.PositionsRight where
  keyImages ki idx hidx := by
    obtain ⟨td, htd, himage⟩ := h.keyImages ki idx hidx
    exact ⟨td, htd, himage.1⟩
  pubKeys := h.pubKeys

/-- What is imported cuts nothing off, and no key or known key image is exchanged for another. -/
def Wallet.Safe (acct : Account) (w : Wallet) : WalletCall → Prop
  | .newTransaction _ => True
  | .detach _ => True
  | .importOutputs offset outputs =>
    offset ≤ w.transfers.length → w.transfers.length ≤ offset + outputs.length ∧
      ∀ i td org, outputs[i]? = some td → w.transfers[offset + i]? = some org →
        Overwrites acct org td
  | .importKeyImages keyImages offset selected =>
    keyImages.length + offset ≤ w.transfers.length → ∀ i ki td, keyImages[i]? = some ki →
      w.transfers[offset + i]? = some td → (selected.all fun s => s (offset + i)) = true →
      td.HasImage td.keyImage → ki = td.keyImage
  | .importSignedKeyImages signedKeyImages offset _ _ =>
    signedKeyImages.length + offset ≤ w.transfers.length →
      ∀ i entry td, signedKeyImages[i]? = some entry → w.transfers[offset + i]? = some td →
        td.HasImage td.keyImage → entry.1 = td.keyImage

/-- Every safe call keeps the maps right. -/
theorem Indexed.call (h : Indexed w) (call : WalletCall) (hsafe : w.Safe acct call) :
    Indexed (w.call acct call) := by
  cases call with
  | newTransaction t =>
    refine after_of_ensures (map (P := fun p => Indexed p.wallet) ?_ fun _ => id)
    exact processNewTransaction_touched.mono (fun _ hp => h.touched hp) fun _ he => h.touched he
  | detach height => exact after_of_ensures (h.detachBlockchain height)
  | importOutputs offset outputs => exact after_of_ensures (h.importOutputs hsafe)
  | importKeyImages keyImages offset selected => exact after_of_ensures (h.importKeyImages hsafe)
  | importSignedKeyImages signedKeyImages offset checkSpent answer =>
    exact after_of_ensures (h.importSignedKeyImages hsafe)

/-- A wallet's calls, from a new one on. -/
theorem positionsRight_of_safeRun (acct : Account) (w : Wallet) (hnew : w.IsNew)
    (calls : List WalletCall)
    (hsafe : Runs.SafeRun (fun w call => some (w.call acct call)) (Wallet.Safe acct) w calls) :
    (calls.foldl (Wallet.call acct) w).PositionsRight := by
  refine Indexed.positionsRight (Runs.SafeRun.inv _ _ ?_ calls w _ hnew.indexed hsafe
    (Runs.run_some (Wallet.call acct) calls w))
  rintro w₁ call _ h₁ hcall heq
  cases heq
  exact h₁.call call hcall

theorem Overwrites.refl (h : td.HasImage td.keyImage) : Overwrites acct td td := by
  refine ⟨rfl, ?_⟩
  rw [if_pos ⟨h.2.1, rfl, rfl, rfl, rfl⟩]
  exact h.2

def twoOutputs : WalletCall :=
  .newTransaction (plainCall 5 50 [] [⟨10, .toKey 101⟩, ⟨3, .toKey 201⟩])

def exportedOutputs : List TransferDetails :=
  (plainWallet.call plainAccount twoOutputs).transfers

theorem positionsRight_of_safeRun_reimport :
    exportedOutputs.length = 2 ∧
    ([twoOutputs, .importOutputs 0 exportedOutputs, .detach 5].foldl (Wallet.call plainAccount)
      plainWallet).PositionsRight := by
  refine ⟨by decide +kernel, positionsRight_of_safeRun plainAccount plainWallet plainWallet_isNew _
    ⟨trivial, fun w hw => ?_⟩⟩
  cases hw
  refine ⟨fun _ => ⟨by simp [exportedOutputs], fun i td org htd horg => ?_⟩,
    fun w' _ => ⟨trivial, fun _ _ => trivial⟩⟩
  rw [Nat.zero_add] at horg
  obtain rfl : td = org := Option.some.inj (htd.symm.trans horg)
  have hall : ∀ td ∈ exportedOutputs, td.keyImageKnown = true ∧ td.keyImagePartial = false := by
    decide +kernel
  exact .refl ⟨rfl, hall td (mem_of_getElem? htd)⟩

/-- An export of one output, made before the other was received, is imported: the second output is
cut off and its positions are left. -/
theorem importOutputs_fewer :
    ¬([twoOutputs, .importOutputs 0 (exportedOutputs.take 1)].foldl (Wallet.call plainAccount)
      plainWallet).PositionsRight := by
  intro h
  obtain ⟨td, htd, -⟩ := h.pubKeys 201 1 (by decide +kernel)
  have hlt := (List.getElem?_eq_some_iff.mp htd).1
  exact absurd hlt (by decide +kernel)

end Nerva
