import Nerva.Proofs.Positions

/-!
# Detaching blocks

While a wallet only scans, its positions are also complete (`Positioned`), so `detach_blockchain`
finds everything it erases. It cuts the transfers off at the first one at or above the height, which
is right just when none below the height stands behind it.
-/

namespace Nerva

open Checks Throwing List

variable {acct : Account} {w w' : Wallet} {td : TransferDetails}
  {done l rest : List TransferDetails} {n idx : ℕ} {key : PublicKey}

/-- The maps and the transfers correspond one to one. -/
structure Positioned (acct : Account) (w : Wallet) : Prop extends Indexed w where
  everyKey : ∀ idx td, w.transfers[idx]? = some td →
    ∃ key, td.getPublicKey = some key ∧ w.pubKeys key = some idx
  everyImage : ∀ idx td, w.transfers[idx]? = some td → td.keyImageKnown = true →
    w.keyImages td.keyImage = some idx ∧
    ∃ key, td.getPublicKey = some key ∧ ImageOf acct w key td.keyImage
  /-- different outputs have different key images -/
  distinct : ∀ key key' ki, ImageOf acct w key ki → ImageOf acct w key' ki → key = key'

theorem imageOf_of_frame (h : w'.frame = w.frame) (key : PublicKey) (ki : KeyImage) :
    ImageOf acct w' key ki ↔ ImageOf acct w key ki := by
  unfold ImageOf
  rw [eq_of_frame Wallet.watchOnly (fun _ => rfl) h, eq_of_frame Wallet.multisig (fun _ => rfl) h,
    eq_of_frame Wallet.coldKeyImages (fun _ => rfl) h]

theorem Positioned.added (h : Positioned acct w) (hframe : w'.frame = w.frame)
    (hadded : Added acct w w' td key) : Positioned acct w' where
  toIndexed := h.toIndexed.added hframe hadded
  everyKey idx td' htd' := by
    rw [hadded.transfers] at htd'
    rw [hadded.pubKeys]
    rcases Lists.of_getElem?_concat htd' with htd' | ⟨rfl, rfl⟩
    · obtain ⟨key', hkey', hidx⟩ := h.everyKey idx td' htd'
      refine ⟨key', hkey', ?_⟩
      rw [Function.update_of_ne, hidx]
      rintro rfl
      simp [hadded.fresh] at hidx
    · exact ⟨key, hadded.getPublicKey, by simp⟩
  everyImage idx td' htd' hknown' := by
    simp only [imageOf_of_frame hframe]
    rw [hadded.transfers] at htd'
    rcases Lists.of_getElem?_concat htd' with htd' | ⟨rfl, rfl⟩
    · obtain ⟨hidx, key', hkey', himage⟩ := h.everyImage idx td' htd' hknown'
      refine ⟨?_, key', hkey', himage⟩
      rw [hadded.keyImages]
      split_ifs with hknown
      · rw [Function.update_of_ne, hidx]
        intro heq
        -- the same key image would be that of the same key, which is new
        obtain rfl := h.distinct key' key _ himage (heq ▸ hadded.image hknown)
        obtain ⟨key'', hkey'', hidx'⟩ := h.everyKey idx td' htd'
        obtain rfl : key' = key'' := Option.some.inj (hkey'.symm.trans hkey'')
        simp [hadded.fresh] at hidx'
      · exact hidx
    · refine ⟨?_, key, hadded.getPublicKey, hadded.image hknown'⟩
      rw [hadded.keyImages, if_pos hknown', Function.update_self]
  distinct key key' ki := by
    simp only [imageOf_of_frame hframe]
    exact h.distinct key key' ki

theorem Positioned.altered (h : Positioned acct w) (hframe : w'.frame = w.frame)
    (haltered : Altered w w') : Positioned acct w' where
  toIndexed := h.toIndexed.altered hframe haltered
  everyKey idx td' htd' := by
    obtain ⟨td, htd, hkept⟩ := Lists.forall₂_getElem? haltered.transfers.flip htd'
    rw [hkept.getPublicKey, haltered.pubKeys]
    exact h.everyKey idx td htd
  everyImage idx td' htd' hknown := by
    obtain ⟨td, htd, hkept⟩ := Lists.forall₂_getElem? haltered.transfers.flip htd'
    simp only [imageOf_of_frame hframe]
    rw [hkept.getPublicKey, hkept.keyImage, haltered.keyImages]
    exact h.everyImage idx td htd (hkept.keyImageKnown ▸ hknown)
  distinct key key' ki := by
    simp only [imageOf_of_frame hframe]
    exact h.distinct key key' ki

/-- Scanning keeps the correspondence. -/
theorem Positioned.touched (h : Positioned acct w) (htouched : Touched acct w w') :
    Positioned acct w' := by
  induction htouched with
  | refl => exact h
  | tail _ htouch ih =>
    rcases htouch.cases ih.toIndexed with ⟨td, key, hadded⟩ | haltered
    · exact ih.added htouch.frame hadded
    · exact ih.altered htouch.frame haltered

theorem getElem?_of_drop (h : l.drop n = done ++ td :: rest) : l[n + done.length]? = some td := by
  rw [← getElem?_drop, h, getElem?_append_right le_rfl, Nat.sub_self]
  rfl

theorem exists_getElem?_of_mem_drop (h : l.drop n = done ++ rest) (htd : td ∈ done) :
    ∃ idx, n ≤ idx ∧ idx < n + done.length ∧ l[idx]? = some td := by
  obtain ⟨j, hj⟩ := mem_iff_getElem?.mp htd
  have hlt := (List.getElem?_eq_some_iff.mp hj).1
  refine ⟨n + j, by omega, by omega, ?_⟩
  rw [← getElem?_drop, h, getElem?_append_left hlt, hj]

theorem lt_of_getElem?_take (h : (l.take n)[idx]? = some td) : idx < n ∧ l[idx]? = some td := by
  rw [getElem?_take] at h
  split_ifs at h with hlt
  exact ⟨hlt, h⟩

theorem Positioned.idx_of_hasImage (h : Positioned acct w) {ki : KeyImage}
    (htd : w.transfers[idx]? = some td) (himage : td.HasImage ki) : w.keyImages ki = some idx := by
  obtain ⟨rfl, hknown, -⟩ := himage
  exact (h.everyImage idx td htd hknown).1

theorem Positioned.idx_of_hasKey (h : Positioned acct w) (htd : w.transfers[idx]? = some td)
    (hkey : td.HasKey key) : w.pubKeys key = some idx := by
  obtain ⟨key', hkey', hidx⟩ := h.everyKey idx td htd
  obtain rfl : key' = key := Option.some.inj (hkey'.symm.trans hkey)
  exact hidx

theorem Erased.eq_some {κ : Type} {P : TransferDetails → κ → Prop} {m₀ m : κ → Option ℕ} {k : κ}
    (h : Erased P m₀ done m) (hpos : ∀ idx td, l[idx]? = some td → P td k → m₀ k = some idx)
    (hl : l.drop n = done ++ td :: rest) (htd : P td k) : m k = some (n + done.length) := by
  have hidx := hpos _ td (getElem?_of_drop hl) htd
  rw [(h k).2 ?_, hidx]
  intro td' htd' hk
  obtain ⟨idx', -, hlt, htd'⟩ := exists_getElem?_of_mem_drop hl htd'
  have := hpos idx' td' htd' hk
  rw [hidx, Option.some.injEq] at this
  omega

/-- Cutting off transfers and their keys keeps the correspondence. -/
theorem Positioned.cut (h : Positioned acct w) {height : ℕ} {m : KeyImage → Option ℕ}
    {m' : PublicKey → Option ℕ}
    (hm : Erased TransferDetails.HasImage w.keyImages (w.transfers.drop n) m)
    (hm' : Erased TransferDetails.HasKey w.pubKeys (w.transfers.drop n) m') :
    Positioned acct (w.cut height n m m') where
  toIndexed := h.toIndexed.cut hm hm'
  everyKey idx td htd := by
    obtain ⟨hlt, htd⟩ := lt_of_getElem?_take htd
    obtain ⟨key, hkey, hidx⟩ := h.everyKey idx td htd
    refine ⟨key, hkey, ((hm' key).2 fun td' htd' hkey' => ?_).trans hidx⟩
    obtain ⟨idx', hn, -, htd'⟩ := exists_getElem?_of_mem_drop (append_nil _).symm htd'
    have := h.idx_of_hasKey htd' hkey'
    rw [hidx, Option.some.injEq] at this
    omega
  everyImage idx td htd hknown := by
    obtain ⟨hlt, htd⟩ := lt_of_getElem?_take htd
    obtain ⟨hidx, hkey⟩ := h.everyImage idx td htd hknown
    refine ⟨((hm td.keyImage).2 fun td' htd' himage' => ?_).trans hidx, hkey⟩
    obtain ⟨idx', hn, -, htd'⟩ := exists_getElem?_of_mem_drop (append_nil _).symm htd'
    have := h.idx_of_hasImage htd' himage'
    rw [hidx, Option.some.injEq] at this
    omega
  distinct := h.distinct

theorem Positioned.reset (h : Positioned acct w) (height : ℕ) :
    Positioned acct (w.reset height) := h.altered rfl (altered_reset w height)

/-- Detaching keeps the correspondence, and throws only below the hash chain. -/
theorem Positioned.detachBlockchain (h : Positioned acct w) (height : ℕ) :
    Ensures (fun w' => Positioned acct w' ∧
        w'.transfers = (w.reset height).transfers.take ((w.reset height).iStart height))
      (fun e => e.1 = w ∧ height < w.blockchain.offset) (w.detachBlockchain height) := by
  have hreset := h.reset height
  refine (detachBlockchain_ensures height (fun hlt _ => ⟨rfl, hlt⟩) ?_ ?_).mono ?_ fun _ => id
  · intro done td rest m hl hm himage hnone
    have := hm.eq_some (l := (w.reset height).transfers)
      (fun idx td' => hreset.idx_of_hasImage) hl himage
    simp [this] at hnone
  · intro done td rest m m' hl _ hm' hnone
    obtain ⟨key, hkey, -⟩ := hreset.everyKey _ td (getElem?_of_drop hl)
    have := hm'.eq_some (l := (w.reset height).transfers) (fun idx td' => hreset.idx_of_hasKey) hl
      hkey
    rw [hnone key hkey] at this
    cases this
  · rintro _ ⟨m, m', hm, hm', rfl⟩
    exact ⟨hreset.cut hm hm', rfl⟩

section Scan

variable {b : ParsedBlock} {height : ℕ} {data : List TxCacheData} {startHeight : ℕ}

variable (h : Positioned acct w)

include h

theorem Positioned.setBlockchain (blockchain : HashChain) :
    Positioned acct { w with blockchain } := by
  obtain ⟨⟨hpubKeys, hkeyImages, hcold⟩, hkey, himage, hdistinct⟩ := h
  exact ⟨⟨hpubKeys, hkeyImages, hcold⟩, hkey, himage, hdistinct⟩

theorem Positioned.processNewBlockchainEntry :
    Ensures (Positioned acct) (fun e => Positioned acct e.1)
      (processNewBlockchainEntry acct w b height data) := by
  refine processNewBlockchainEntry_touched.mono ?_ fun _ he => h.touched he
  rintro _ ⟨w', hw', rfl⟩
  exact (h.touched hw').setBlockchain _

theorem Positioned.processParsedBlock {entry : (ParsedBlock × List TxCacheData) × ℕ} :
    Ensures (Positioned acct) (fun e => Positioned acct e.1)
      (processParsedBlock acct startHeight w entry) := by
  unfold Nerva.processParsedBlock
  simp only
  split
  · exact h.processNewBlockchainEntry
  · split
    · exact h
    · refine Ensures.require_bind (fun _ => h) fun _ => ?_
      refine ((h.detachBlockchain _).mono (fun _ h => h.1) fun e he => ?_).bind fun w₁ h₁ =>
        h₁.processNewBlockchainEntry
      rw [he.1]
      exact h

theorem Positioned.processParsedBlocks {blocks : List ParsedBlock} :
    Ensures (Positioned acct) (fun e => Positioned acct e.1)
      (processParsedBlocks acct w startHeight blocks) := by
  refine Ensures.require_bind (fun _ => h) fun _ => Ensures.require_bind (fun _ => h) fun _ => ?_
  refine Ensures.bind (P := fun _ => True) ?_ fun data _ =>
    Ensures.foldlM _ _ h fun _ _ _ h₁ => h₁.processParsedBlock
  cases blocks.zipIdx.mapM fun x => cacheBlock acct w x.1 (startHeight + x.2) with
  | ok data => trivial
  | error e => exact h

theorem Positioned.scan (call : ScanCall) : Positioned acct (w.scan acct call) := by
  cases call with
  | blocks startHeight blocks => exact after_of_ensures h.processParsedBlocks
  | transaction t =>
    refine after_of_ensures (Ensures.map (P := fun p => Positioned acct p.wallet) ?_ fun _ => id)
    exact processNewTransaction_touched.mono (fun _ hp => h.touched hp) fun _ he => h.touched he

end Scan

theorem Wallet.IsNew.positioned (h : w.IsNew)
    (hdistinct : ∀ key key' ki, ImageOf acct w key ki → ImageOf acct w key' ki → key = key') :
    Positioned acct w where
  toIndexed := h.indexed
  everyKey idx td htd := by simp [h.transfers] at htd
  everyImage idx td htd := by simp [h.transfers] at htd
  distinct := hdistinct

/-- The correspondence holds after all scans. -/
theorem Positioned.scans (h : Positioned acct w) : ∀ calls : List ScanCall,
    Positioned acct (calls.foldl (Wallet.scan acct) w) := by
  intro calls
  induction calls generalizing w with
  | nil => exact h
  | cons call calls ih => exact ih (h.scan call)

/-- What a transfer says of the output. -/
def TransferDetails.output (td : TransferDetails) : TransferDetails :=
  { td with spent := false, frozen := false, spentHeight := 0, uses := [] }

theorem output_resetTransfer (height : ℕ) (td : TransferDetails) :
    (Wallet.resetTransfer height td).output = td.output := by
  unfold Wallet.resetTransfer
  split <;> rfl

theorem blockHeight_resetTransfer (height : ℕ) (td : TransferDetails) :
    (Wallet.resetTransfer height td).blockHeight = td.blockHeight := by
  unfold Wallet.resetTransfer
  split <;> rfl

/-- The transfers that are left, as outputs. -/
theorem take_iStart_reset (w : Wallet) (height : ℕ) :
    ((w.reset height).transfers.take ((w.reset height).iStart height)).map
      TransferDetails.output = (w.transfers.takeWhile fun td => td.blockHeight < height).map
        TransferDetails.output := by
  have hstart : (w.reset height).iStart height =
      w.transfers.findIdx fun td => height ≤ td.blockHeight := by
    rw [Wallet.iStart, Wallet.reset, findIdx_map]
    simp only [Function.comp_def, blockHeight_resetTransfer]
  have hwhile :=
    Lists.take_findIdx (fun td : TransferDetails => height ≤ td.blockHeight) w.transfers
  simp only [← decide_not, not_le] at hwhile
  rw [hstart, Wallet.reset, ← hwhile, ← map_take, map_map]
  exact map_congr_left fun td _ => output_resetTransfer height td

/-- Detaching forgets exactly the outputs at or above the height just when none below it stands
behind one of them. -/
theorem detachBlockchain_forgets_iff (acct : Account) (w₀ : Wallet) (hnew : w₀.IsNew)
    (hdistinct : ∀ key key' ki, ImageOf acct w₀ key ki → ImageOf acct w₀ key' ki → key = key')
    (calls : List ScanCall) (w : Wallet) (hw : w = calls.foldl (Wallet.scan acct) w₀) (height : ℕ)
    (hoffset : w.blockchain.offset ≤ height) :
    (∃ w', w.detachBlockchain height = .ok w' ∧ w'.transfers.map TransferDetails.output =
        (w.transfers.filter fun td => td.blockHeight < height).map TransferDetails.output) ↔
      w.transfers.Pairwise fun a b => height ≤ a.blockHeight → height ≤ b.blockHeight := by
  have hpositioned : Positioned acct w := hw ▸ (hnew.positioned hdistinct).scans calls
  have hensures := hpositioned.detachBlockchain height
  have hlen := Lists.length_takeWhile_eq_iff (fun td : TransferDetails => height ≤ td.blockHeight)
    w.transfers
  simp only [← decide_not, decide_eq_true_eq] at hlen
  cases hdetach : w.detachBlockchain height with
  | error e =>
    rw [hdetach] at hensures
    exact absurd hensures.2 (not_lt.mpr hoffset)
  | ok w' =>
    rw [hdetach] at hensures
    have htransfers := hensures.2
    constructor
    · rintro ⟨w'', hw'', hleft⟩
      cases hw''
      rw [htransfers, take_iStart_reset] at hleft
      refine hlen.mp ?_
      simpa using congrArg List.length hleft
    · intro hpairwise
      refine ⟨w', rfl, ?_⟩
      have hfilter := Lists.takeWhile_eq_filter
        (p := fun td : TransferDetails => height ≤ td.blockHeight) (l := w.transfers)
        (by simpa using hpairwise)
      simp only [← decide_not, not_le] at hfilter
      rw [htransfers, take_iStart_reset, hfilter]

theorem plainWallet_distinct : ∀ key key' ki, ImageOf plainAccount plainWallet key ki →
    ImageOf plainAccount plainWallet key' ki → key = key' := by
  rintro key key' ki (⟨-, -, d, i, x, h⟩ | h) (⟨-, -, d', i', x', h'⟩ | h')
  · simp only [plainAccount, Option.some.injEq, Prod.mk.injEq, true_and] at h h'
    exact Nat.add_right_cancel (h.trans h'.symm)
  all_goals simp [plainWallet] at h h'

def orderedCalls : List ScanCall :=
  [.blocks 0 [minedBlock 0 1 0, minedBlock 1 10 101, minedBlock 2 5 201]]

theorem detachBlockchain_forgets_iff_ordered :
    let w := orderedCalls.foldl (Wallet.scan plainAccount) plainWallet
    w.transfers.length = 2 ∧ ∃ w', w.detachBlockchain 2 = .ok w' ∧
      w'.transfers.map TransferDetails.output =
        (w.transfers.filter fun td => td.blockHeight < 2).map TransferDetails.output := by
  refine ⟨by decide +kernel, (detachBlockchain_forgets_iff plainAccount plainWallet
    plainWallet_isNew plainWallet_distinct orderedCalls _ rfl 2 (by decide +kernel)).mpr
      (by decide +kernel)⟩

def replacingCalls : List ScanCall :=
  [.blocks 0 [minedBlock 0 1 0, minedBlock 1 10 101, minedBlock 2 5 201, minedBlock 3 20 101]]

/-- The output of the second block is lost with the one that was replaced. -/
theorem detachBlockchain_replacingCalls :
    let w := replacingCalls.foldl (Wallet.scan plainAccount) plainWallet
    ∃ w', w.detachBlockchain 3 = .ok w' ∧ w'.transfers.map TransferDetails.output ≠
      (w.transfers.filter fun td => td.blockHeight < 3).map TransferDetails.output := by
  intro w
  obtain ⟨w', hw', hlost⟩ : ∃ w', w.detachBlockchain 3 = .ok w' ∧
      (w'.transfers.length == 0) = true :=
    exists_ok_of_any (p := fun w' : Wallet => w'.transfers.length == 0) (by decide +kernel)
  have hkept : (w.transfers.filter fun td => td.blockHeight < 3).length = 1 := by decide +kernel
  refine ⟨w', hw', fun heq => ?_⟩
  have hlen := congrArg List.length heq
  rw [length_map, length_map] at hlen
  exact absurd (beq_iff_eq.mp hlost) (by omega)

end Nerva
