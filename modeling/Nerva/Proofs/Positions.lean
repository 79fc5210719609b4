import Nerva.Proofs.WalletScan

/-!
# Positions

A wallet is `Indexed` if every key and every key image it has a position for is at that position.
Scanning keeps this, and so does `detach_blockchain`: it erases the positions of all that it cuts
off, and where it throws it has only erased some.
-/

namespace Nerva

open Checks Throwing List Wallet

variable {acct : Account} {w w' : Wallet} {td : TransferDetails} {key : PublicKey}
  {Q : Thrown → Prop} {td' : TransferDetails} {idx n : ℕ} {m : KeyImage → Option ℕ}
  {m' : PublicKey → Option ℕ}

/-- The key image of the transfer is known and whole. -/
def TransferDetails.HasImage (td : TransferDetails) (ki : KeyImage) : Prop :=
  td.keyImage = ki ∧ td.keyImageKnown = true ∧ td.keyImagePartial = false

/-- Both maps of the wallet point to transfers with these keys. -/
structure Indexed (w : Wallet) : Prop where
  pubKeys : ∀ key idx, w.pubKeys key = some idx →
    ∃ td, w.transfers[idx]? = some td ∧ td.getPublicKey = some key
  keyImages : ∀ ki idx, w.keyImages ki = some idx →
    ∃ td, w.transfers[idx]? = some td ∧ td.HasImage ki
  /-- a multisig wallet has no key images from a cold one -/
  cold : w.multisig = true → ∀ key, w.coldKeyImages key = none

/-- A wallet that has seen nothing. -/
structure Wallet.IsNew (w : Wallet) : Prop where
  transfers : w.transfers = []
  keyImages : w.keyImages = fun _ => none
  pubKeys : w.pubKeys = fun _ => none
  cold : w.multisig = true → ∀ key, w.coldKeyImages key = none

theorem Wallet.IsNew.indexed (h : w.IsNew) : Indexed w where
  pubKeys key idx hidx := by simp [h.pubKeys] at hidx
  keyImages ki idx hidx := by simp [h.keyImages] at hidx
  cold := h.cold

theorem plainWallet_isNew : plainWallet.IsNew := ⟨rfl, rfl, rfl, fun _ _ => rfl⟩

theorem after_of_ensures {P : Wallet → Prop} {x : Except Thrown Wallet}
    (h : Ensures P (fun e => P e.1) x) : P (after x) := by
  cases x with
  | ok w => exact h
  | error e => exact h

theorem Kept.hasImage {ki : KeyImage} (h : Kept td td') : td'.HasImage ki ↔ td.HasImage ki := by
  rw [TransferDetails.HasImage, h.keyImage, h.keyImageKnown, h.keyImagePartial,
    TransferDetails.HasImage]

theorem Added.hasImage (h : Added acct w w' td key)
    (hcold : w.multisig = true → ∀ key, w.coldKeyImages key = none)
    (hknown : td.keyImageKnown = true) : td.HasImage td.keyImage := by
  refine ⟨rfl, hknown, ?_⟩
  rw [h.isPartial]
  rcases h.image hknown with ⟨-, hmultisig, -⟩ | himage
  · exact hmultisig
  · by_contra hmultisig
    simp [hcold (by simpa using hmultisig) key] at himage

theorem Replaced.altered (h : Replaced w w' idx td td' key) (hw : Indexed w) : Altered w w' where
  transfers := by
    obtain ⟨td₀, htd₀, hkey⟩ := hw.pubKeys key idx h.position
    obtain rfl : td = td₀ := Option.some.inj (h.old.symm.trans htd₀)
    have hset : w'.transfers = w.transfers.modify idx fun _ => td' := by
      rw [h.transfers, modify_eq_set_getElem?]
      simp [h.old]
    rw [hset]
    refine forall₂_kept_modify _ idx fun td₁ htd₁ => ?_
    obtain rfl : td = td₁ := Option.some.inj (h.old.symm.trans htd₁)
    exact ⟨h.getPublicKey.trans hkey.symm, h.keyImage, h.keyImageKnown, h.keyImagePartial⟩
  pubKeys := h.pubKeys
  keyImages := h.keyImages

theorem Indexed.added (h : Indexed w) (hframe : w'.frame = w.frame)
    (hadded : Added acct w w' td key) : Indexed w' where
  pubKeys key' idx hidx := by
    rw [hadded.pubKeys, Function.update_apply] at hidx
    rw [hadded.transfers]
    split_ifs at hidx with heq
    · cases hidx
      exact ⟨td, by simp, heq ▸ hadded.getPublicKey⟩
    · obtain ⟨td', htd', hkey⟩ := h.pubKeys key' idx hidx
      exact ⟨td', by rw [getElem?_append_left (List.getElem?_eq_some_iff.mp htd').1, htd'], hkey⟩
  keyImages ki idx hidx := by
    have hold : w.keyImages ki = some idx → ∃ td', (w.transfers ++ [td])[idx]? = some td' ∧
        td'.HasImage ki := by
      intro hidx
      obtain ⟨td', htd', himage⟩ := h.keyImages ki idx hidx
      exact ⟨td', by rw [getElem?_append_left (List.getElem?_eq_some_iff.mp htd').1, htd'],
        himage⟩
    rw [hadded.keyImages] at hidx
    rw [hadded.transfers]
    split_ifs at hidx with hknown
    · rw [Function.update_apply] at hidx
      split_ifs at hidx with heq
      · cases hidx
        exact ⟨td, by simp, heq ▸ hadded.hasImage h.cold hknown⟩
      · exact hold hidx
    · exact hold hidx
  cold := by
    rw [eq_of_frame multisig (fun _ => rfl) hframe,
      eq_of_frame coldKeyImages (fun _ => rfl) hframe]
    exact h.cold

theorem Indexed.altered (h : Indexed w) (hframe : w'.frame = w.frame) (haltered : Altered w w') :
    Indexed w' where
  pubKeys key idx hidx := by
    rw [haltered.pubKeys] at hidx
    obtain ⟨td, htd, hkey⟩ := h.pubKeys key idx hidx
    obtain ⟨td', htd', hkept⟩ := Lists.forall₂_getElem? haltered.transfers htd
    exact ⟨td', htd', hkept.getPublicKey.trans hkey⟩
  keyImages ki idx hidx := by
    rw [haltered.keyImages] at hidx
    obtain ⟨td, htd, himage⟩ := h.keyImages ki idx hidx
    obtain ⟨td', htd', hkept⟩ := Lists.forall₂_getElem? haltered.transfers htd
    exact ⟨td', htd', hkept.hasImage.mpr himage⟩
  cold := by
    rw [eq_of_frame multisig (fun _ => rfl) hframe,
      eq_of_frame coldKeyImages (fun _ => rfl) hframe]
    exact h.cold

theorem Touch.cases (h : Touch acct w w') (hw : Indexed w) :
    (∃ td key, Added acct w w' td key) ∨ Altered w w' := by
  rcases h.change with hadded | ⟨idx, td, td', key, hreplaced⟩ | haltered
  · exact .inl hadded
  · exact .inr (hreplaced.altered hw)
  · exact .inr haltered

/-- Scanning keeps the maps right. -/
theorem Indexed.touched (h : Indexed w) (htouched : Touched acct w w') : Indexed w' := by
  induction htouched with
  | refl => exact h
  | tail _ htouch ih =>
    rcases htouch.cases ih with ⟨td, key, hadded⟩ | haltered
    · exact ih.added htouch.frame hadded
    · exact ih.altered htouch.frame haltered

section Erase

variable {κ : Type} {P : TransferDetails → κ → Prop} {m₀ m : κ → Option ℕ}
  {done : List TransferDetails} {td : TransferDetails}

/-- The keys of some transfers are erased, the others kept. -/
def Erased (P : TransferDetails → κ → Prop) (m₀ : κ → Option ℕ) (done : List TransferDetails)
    (m : κ → Option ℕ) : Prop :=
  ∀ k, ((∃ td ∈ done, P td k) → m k = none) ∧ ((∀ td ∈ done, ¬P td k) → m k = m₀ k)

theorem Erased.nil : Erased P m₀ [] m₀ := fun _ => ⟨by simp, fun _ => rfl⟩

variable (h : Erased P m₀ done m)

include h

theorem Erased.skip (htd : ∀ k, ¬P td k) : Erased P m₀ (done ++ [td]) m := by
  intro k
  refine ⟨?_, fun hall => (h k).2 fun td' htd' => hall td' (mem_append_left _ htd')⟩
  rintro ⟨td', htd', hk⟩
  rcases mem_append.mp htd' with htd' | htd'
  · exact (h k).1 ⟨td', htd', hk⟩
  · exact absurd (mem_singleton.mp htd' ▸ hk) (htd k)

theorem Erased.update [DecidableEq κ] {k₀ : κ} (htd : ∀ k, P td k ↔ k = k₀) :
    Erased P m₀ (done ++ [td]) (Function.update m k₀ none) := by
  intro k
  rw [Function.update_apply]
  constructor
  · rintro ⟨td', htd', hk⟩
    split_ifs with heq
    · rfl
    · rcases mem_append.mp htd' with htd' | htd'
      · exact (h k).1 ⟨td', htd', hk⟩
      · exact absurd ((htd k).mp (mem_singleton.mp htd' ▸ hk)) heq
  · intro hall
    rw [if_neg fun heq => hall td (by simp) ((htd k).mpr heq)]
    exact (h k).2 fun td' htd' => hall td' (mem_append_left _ htd')

theorem Erased.of_some {k : κ} {idx : ℕ} (hk : m k = some idx) :
    m₀ k = some idx ∧ ∀ td ∈ done, ¬P td k := by
  have hall : ∀ td ∈ done, ¬P td k := by
    intro td htd hP
    rw [(h k).1 ⟨td, htd, hP⟩] at hk
    cases hk
  exact ⟨(h k).2 hall ▸ hk, hall⟩

end Erase

def TransferDetails.HasKey (td : TransferDetails) (key : PublicKey) : Prop :=
  td.getPublicKey = some key

/-- The first loop of `detach_blockchain` erases the key images, or throws. -/
theorem eraseKeyImages_ensures (l : List TransferDetails)
    (hthrow : ∀ done td rest m, l = done ++ td :: rest →
      Erased TransferDetails.HasImage w.keyImages done m → td.HasImage td.keyImage →
      m td.keyImage = none → Q ({ w with keyImages := m }, .internal "key image not found")) :
    Ensures (fun w₁ => ∃ m, w₁ = { w with keyImages := m } ∧
      Erased TransferDetails.HasImage w.keyImages l m) Q (l.foldlM eraseKeyImage w) := by
  refine Ensures.foldlM_done (I := fun done w₁ => ∃ m, w₁ = { w with keyImages := m } ∧
    Erased TransferDetails.HasImage w.keyImages done m) ?_ [] l w rfl ⟨_, rfl, Erased.nil⟩
  rintro done td rest _ hl ⟨m, rfl, herased⟩
  unfold eraseKeyImage
  split
  · next hskip =>
    refine ⟨m, rfl, herased.skip ?_⟩
    rintro ki ⟨-, hknown, hwhole⟩
    simp [hknown, hwhole] at hskip
  · next hskip =>
    have himage : td.HasImage td.keyImage := ⟨rfl, by simpa using hskip⟩
    refine Ensures.require_bind (fun hnone => hthrow done td rest m hl herased himage
      (by simpa using hnone)) fun _ => ⟨_, rfl, herased.update fun ki => ?_⟩
    exact ⟨fun h => h.1.symm, fun h => h ▸ himage⟩

/-- The second loop erases the output keys, or throws. -/
theorem erasePubKeys_ensures (l : List TransferDetails)
    (hkey : ∀ done td rest m, l = done ++ td :: rest →
      Erased TransferDetails.HasKey w.pubKeys done m → td.getPublicKey = none →
      Q ({ w with pubKeys := m }, .badGet))
    (hthrow : ∀ done td rest m key, l = done ++ td :: rest →
      Erased TransferDetails.HasKey w.pubKeys done m → td.getPublicKey = some key →
      m key = none → Q ({ w with pubKeys := m }, .internal "public key not found")) :
    Ensures (fun w₁ => ∃ m, w₁ = { w with pubKeys := m } ∧
      Erased TransferDetails.HasKey w.pubKeys l m) Q (l.foldlM erasePubKey w) := by
  refine Ensures.foldlM_done (I := fun done w₁ => ∃ m, w₁ = { w with pubKeys := m } ∧
    Erased TransferDetails.HasKey w.pubKeys done m) ?_ [] l w rfl ⟨_, rfl, Erased.nil⟩
  rintro done td rest _ hl ⟨m, rfl, herased⟩
  refine Ensures.demand_bind (fun hnone => hkey done td rest m hl herased hnone) fun key htd => ?_
  refine Ensures.require_bind (fun hnone => hthrow done td rest m key hl herased htd
    (by simpa using hnone)) fun _ => ⟨_, rfl, herased.update fun key' => ?_⟩
  rw [TransferDetails.HasKey, htd, Option.some.injEq, eq_comm]

theorem resetTransfer_kept (height : ℕ) (td : TransferDetails) :
    Kept td (resetTransfer height td) := by
  unfold resetTransfer
  split <;> exact ⟨rfl, rfl, rfl, rfl⟩

/-- The wallet after the transfers spent above the height are reset. -/
def Wallet.reset (w : Wallet) (height : ℕ) : Wallet :=
  { w with
    transfers := w.transfers.map (Wallet.resetTransfer height)
    outputTrackerCache := w.outputTrackerCache.map fun _ _ => none }

/-- The wallet with the transfers above the height cut off. -/
def Wallet.cut (w : Wallet) (height n : ℕ) (keyImages : KeyImage → Option ℕ)
    (pubKeys : PublicKey → Option ℕ) : Wallet :=
  { w with
    keyImages, pubKeys
    transfers := w.transfers.take n
    blockchain := w.blockchain.crop height
    payments := w.payments.filter fun p => ¬height ≤ p.blockHeight }

/-- The first transfer at or above the height. -/
def Wallet.iStart (w : Wallet) (height : ℕ) : ℕ :=
  w.transfers.findIdx fun td => height ≤ td.blockHeight

theorem altered_reset (w : Wallet) (height : ℕ) : Altered w (w.reset height) where
  transfers := forall₂_map_right_iff.mpr
    (forall₂_same.mpr fun td _ => resetTransfer_kept height td)
  pubKeys := rfl
  keyImages := rfl

/-- What `detach_blockchain` returns, and where it throws. -/
theorem detachBlockchain_ensures (height : ℕ)
    (hoffset : height < w.blockchain.offset → w.blockchain.offset < w.blockchain.size →
      Q (w, .internal "Daemon claims reorg below last checkpoint"))
    (hki : ∀ done td rest m, (w.reset height).transfers.drop ((w.reset height).iStart height) =
      done ++ td :: rest → Erased TransferDetails.HasImage w.keyImages done m →
      td.HasImage td.keyImage → m td.keyImage = none →
      Q ({ w.reset height with keyImages := m }, .internal "key image not found"))
    (hkey : ∀ done td rest m m', (w.reset height).transfers.drop ((w.reset height).iStart height) =
      done ++ td :: rest → Erased TransferDetails.HasImage w.keyImages
        ((w.reset height).transfers.drop ((w.reset height).iStart height)) m →
      Erased TransferDetails.HasKey w.pubKeys done m' →
      (∀ key, td.getPublicKey = some key → m' key = none) → ∀ e : WalletError,
      Q ({ w.reset height with keyImages := m, pubKeys := m' }, e)) :
    Ensures (fun w' => ∃ m m',
        Erased TransferDetails.HasImage w.keyImages
          ((w.reset height).transfers.drop ((w.reset height).iStart height)) m ∧
        Erased TransferDetails.HasKey w.pubKeys
          ((w.reset height).transfers.drop ((w.reset height).iStart height)) m' ∧
        w' = (w.reset height).cut height ((w.reset height).iStart height) m m') Q
      (w.detachBlockchain height) := by
  refine Ensures.require_bind (fun h => ?_) fun _ => ?_
  · obtain ⟨hlt, hsize⟩ := not_not.mp h
    exact hoffset hlt hsize
  refine (eraseKeyImages_ensures (w := w.reset height) _ fun done td rest m hl herased himage
    hnone => hki done td rest m hl herased himage hnone).bind ?_
  rintro _ ⟨m, rfl, herased⟩
  refine (erasePubKeys_ensures (w := { w.reset height with keyImages := m }) _ ?_ ?_).bind ?_
  · intro done td rest m' hl herased' hnone
    exact hkey done td rest m m' hl herased herased' (by simp [hnone]) _
  · intro done td rest m' key hl herased' hkey' hnone
    refine hkey done td rest m m' hl herased herased' (fun key' hkey'' => ?_) _
    obtain rfl : key = key' := Option.some.inj (hkey'.symm.trans hkey'')
    exact hnone
  · rintro _ ⟨m', rfl, herased'⟩
    exact ⟨m, m', herased, herased', rfl⟩

theorem mem_drop_of_getElem? {l : List TransferDetails} (h : l[idx]? = some td) (hn : n ≤ idx) :
    td ∈ l.drop n := by
  refine mem_of_getElem? (i := idx - n) ?_
  rw [getElem?_drop, Nat.add_sub_cancel' hn]
  exact h

theorem Indexed.submaps (h : Indexed w) (hm : ∀ ki idx, m ki = some idx → w.keyImages ki = some idx)
    (hm' : ∀ key idx, m' key = some idx → w.pubKeys key = some idx) :
    Indexed { w with keyImages := m, pubKeys := m' } where
  pubKeys key idx hidx := h.pubKeys key idx (hm' key idx hidx)
  keyImages ki idx hidx := h.keyImages ki idx (hm ki idx hidx)
  cold := h.cold

/-- Cutting off transfers and their keys keeps the maps right. -/
theorem Indexed.cut (h : Indexed w) {height : ℕ}
    (hm : Erased TransferDetails.HasImage w.keyImages (w.transfers.drop n) m)
    (hm' : Erased TransferDetails.HasKey w.pubKeys (w.transfers.drop n) m') :
    Indexed (w.cut height n m m') where
  pubKeys key idx hidx := by
    obtain ⟨hold, hall⟩ := hm'.of_some hidx
    obtain ⟨td, htd, hkey⟩ := h.pubKeys key idx hold
    have hlt : idx < n := by
      by_contra hle
      exact hall td (mem_drop_of_getElem? htd (not_lt.mp hle)) hkey
    exact ⟨td, (getElem?_take_of_lt hlt).trans htd, hkey⟩
  keyImages ki idx hidx := by
    obtain ⟨hold, hall⟩ := hm.of_some hidx
    obtain ⟨td, htd, himage⟩ := h.keyImages ki idx hold
    have hlt : idx < n := by
      by_contra hle
      exact hall td (mem_drop_of_getElem? htd (not_lt.mp hle)) himage
    exact ⟨td, (getElem?_take_of_lt hlt).trans htd, himage⟩
  cold := h.cold

theorem Indexed.reset (h : Indexed w) (height : ℕ) : Indexed (w.reset height) :=
  h.altered rfl (altered_reset w height)

/-- Detaching keeps the maps right, whether it returns or throws. -/
theorem Indexed.detachBlockchain (h : Indexed w) (height : ℕ) :
    Ensures Indexed (fun e => Indexed e.1) (w.detachBlockchain height) := by
  have hreset := h.reset height
  refine (detachBlockchain_ensures height (fun _ _ => h) ?_ ?_).mono ?_ fun _ => id
  · intro done td rest m _ hm _ _
    exact hreset.submaps (fun ki idx hidx => (hm.of_some hidx).1) fun _ _ hidx => hidx
  · intro done td rest m m' _ hm hm' _ _
    exact hreset.submaps (fun ki idx hidx => (hm.of_some hidx).1)
      fun key idx hidx => (hm'.of_some hidx).1
  · rintro _ ⟨m, m', hm, hm', rfl⟩
    exact hreset.cut hm hm'

end Nerva
