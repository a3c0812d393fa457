import Staaash.Library.Runs
import Staaash.Sharing.Proofs.AccessProofs

/-!
# Links are confined and can be taken back

Every row has the hash of its own token, and a password hash that some password was made into; every cookie
was given out for a password that the hash in it admits. Runs keep this, and with it a token or a cookie
that gets past a check is the one that the link has now.
-/

namespace Staaash.Sharing

open Staaash.Library

variable {rt : Runtime} {w w' : World} {share : ShareLink} {shares shares' : ShareTable}

/-! ## Hashes -/

theorem hashOpaqueToken_injective (h : rt.CollisionFree) : Function.Injective rt.hashOpaqueToken := by
  intro token token' heq
  exact (String.append_right_inj _).1 (h.sha256 heq)

theorem text_injective : Function.Injective Base64url.text := by
  rintro ⟨text, hplain⟩ ⟨text', hplain'⟩ rfl
  rfl

theorem fingerprint_injective (h : rt.CollisionFree) {shareId tokenLookupKey passwordHash passwordHash' : String}
    (heq : (rt.buildShareAccessFingerprint shareId tokenLookupKey passwordHash).text =
      (rt.buildShareAccessFingerprint shareId tokenLookupKey passwordHash').text) :
    passwordHash = passwordHash' :=
  (String.append_right_inj _).1 (h.hmac (text_injective heq))

theorem splitOn_hashPassword (password : String) (salt : Base64url) :
    (rt.hashPassword password salt).toList.splitOn ':' =
      ["s1".toList, salt.text.toList, (rt.scrypt password salt.text).text.toList] := by
  have hparts : (rt.hashPassword password salt).toList = [':'].intercalate
      ["s1".toList, salt.text.toList, (rt.scrypt password salt.text).text.toList] := by
    unfold Runtime.hashPassword
    simp [List.intercalate]
  rw [hparts]
  refine List.splitOn_intercalate ':' ?_ (List.cons_ne_nil _ _)
  simp only [List.forall_mem_cons, List.not_mem_nil, false_imp_iff, implies_true, and_true]
  refine ⟨by decide, ?_, ?_⟩
  · exact fun hmem => (salt.plain ':' hmem).1 rfl
  · exact fun hmem => ((rt.scrypt password salt.text).plain ':' hmem).1 rfl

theorem eq_of_verifyPassword (h : rt.CollisionFree) {password password' : String} {salt : Base64url}
    (hverify : rt.verifyPassword password' (rt.hashPassword password salt) = true) : password' = password := by
  unfold Runtime.verifyPassword at hverify
  rw [splitOn_hashPassword] at hverify
  simp only [Bool.and_eq_true, decide_eq_true_eq, String.ofList_toList] at hverify
  exact h.scrypt salt.text (text_injective (String.toList_inj.1 hverify.2))

theorem toList_ne_nil {value : String} (h : value ≠ "") : value.toList ≠ [] :=
  fun heq => h (String.toList_inj.1 heq)

theorem verifyPassword_hashPassword {password : String} {salt : Base64url} (hsalt : salt.text ≠ "")
    (hhash : (rt.scrypt password salt.text).text ≠ "") :
    rt.verifyPassword password (rt.hashPassword password salt) = true := by
  unfold Runtime.verifyPassword
  rw [splitOn_hashPassword]
  simp [toList_ne_nil hsalt, toList_ne_nil hhash]

theorem getShareLookupKey_buildShareToken {key : Base64url} (hne : key.text ≠ "") :
    getShareLookupKey (rt.buildShareToken key) = some key.text := by
  have hplain : ∀ c ∈ key.text.toList, decide (c ≠ '.') = true :=
    fun c hc => decide_eq_true (key.plain c hc).2
  have hspan : (rt.buildShareToken key).toList.span (fun c => decide (c ≠ '.')) =
      (key.text.toList, '.' :: (rt.signShareLookupKey key.text).text.toList) := by
    unfold Runtime.buildShareToken
    rw [List.span_eq_takeWhile_dropWhile, String.toList_append, String.toList_append, List.append_assoc,
      List.takeWhile_append_of_pos hplain, List.dropWhile_append_of_pos hplain]
    simp
  unfold getShareLookupKey
  rw [hspan]
  cases hkey : key.text.toList with
  | nil => exact absurd hkey (toList_ne_nil hne)
  | cons c rest =>
    show some (String.ofList (c :: rest)) = _
    rw [← hkey, String.ofList_toList]

theorem eq_of_cutAtLastDot {value before after : List Char} (h : cutAtLastDot value = some (before, after)) :
    value = before ++ '.' :: after := by
  unfold cutAtLastDot at h
  have happend := List.takeWhile_append_dropWhile (p := fun c => decide (c ≠ '.')) (l := value.reverse)
  rw [List.span_eq_takeWhile_dropWhile] at h
  cases hdrop : value.reverse.dropWhile (fun c => decide (c ≠ '.')) with
  | nil =>
    rw [hdrop] at h
    cases h
  | cons c rest =>
    have hdot : c = '.' := by
      have hhead := List.head?_dropWhile_not (fun c => decide (c ≠ '.')) value.reverse
      rw [hdrop] at hhead
      simpa using hhead
    rw [hdrop] at h
    cases h
    subst hdot
    rw [hdrop] at happend
    refine (List.reverse_reverse value).symm.trans ((congrArg List.reverse happend.symm).trans ?_)
    rw [List.reverse_append, List.reverse_cons, List.append_assoc, List.singleton_append]

theorem cutAtLastDot_append {before after : List Char} (h : '.' ∉ after) :
    cutAtLastDot (before ++ '.' :: after) = some (before, after) := by
  unfold cutAtLastDot
  have hafter : ∀ c ∈ after.reverse, decide (c ≠ '.') = true := by
    intro c hc
    exact decide_eq_true fun hdot => h (hdot ▸ List.mem_reverse.1 hc)
  rw [List.span_eq_takeWhile_dropWhile, List.reverse_append, List.reverse_cons, List.append_assoc,
    List.takeWhile_append_of_pos hafter, List.dropWhile_append_of_pos hafter]
  simp

theorem cutAtLastDot_signed (value : String) (signature : Base64url) :
    cutAtLastDot (value ++ "." ++ signature.text).toList = some (value.toList, signature.text.toList) := by
  rw [String.toList_append, String.toList_append, List.append_assoc]
  exact cutAtLastDot_append fun hdot => (signature.plain '.' hdot).2 rfl

/-- A cookie that was given out is signed once. -/
theorem genuine_of_issued {issued : Issued} (h : issued ∈ w.issued) :
    w.Genuine rt (some (rt.cookieValue issued.payload)) := by
  intro payloadValue heq
  have hparts := cutAtLastDot_signed (rt.serializePayload issued.payload).text
    (rt.signValue (rt.serializePayload issued.payload).text)
  have heq : rt.cookieValue issued.payload = payloadValue ++ "." ++ (rt.signValue payloadValue).text :=
    Option.some.inj heq
  rw [show (rt.serializePayload issued.payload).text ++ "." ++
    (rt.signValue (rt.serializePayload issued.payload).text).text = rt.cookieValue issued.payload from rfl, heq,
    cutAtLastDot_signed] at hparts
  exact ⟨issued, h, String.toList_inj.1 (Prod.mk.inj (Option.some.inj hparts)).1⟩

/-- A cookie opens the link while its password is the one that was entered. -/
theorem isUnlocked_of_issued (hfree : rt.CollisionFree) {issued : Issued} {passwordHash : String}
    (hhash : issued.share.passwordHash = some passwordHash)
    (hmade : issued.accessFingerprint = rt.buildShareAccessFingerprint issued.share.id
      issued.share.tokenLookupKey.text passwordHash)
    (htext : (rt.serializePayload issued.payload).text ≠ "") :
    World.isUnlocked rt (some (rt.cookieValue issued.payload)) issued.share = true := by
  unfold World.isUnlocked Runtime.verifyShareAccessCookie Runtime.cookieValue
  rw [hhash, Option.all_some, Option.bind_some, cutAtLastDot_signed, Option.any_some]
  simp only [String.ofList_toList, hfree.payload, Option.any_some, Bool.and_eq_true, decide_eq_true_eq]
  exact ⟨⟨toList_ne_nil htext, trivial⟩, ⟨rfl, rfl⟩, congrArg Base64url.text hmade⟩

/-! ## Rows -/

/-- The token and the password of the row come from a call. -/
structure ShareLink.Made (rt : Runtime) (share : ShareLink) : Prop where
  token : share.tokenHash = rt.hashOpaqueToken (rt.buildShareToken share.tokenLookupKey)
  password : ∀ passwordHash, share.passwordHash = some passwordHash →
    ∃ password salt, passwordHash = rt.hashPassword password salt

theorem ShareLink.Made.of_eq {other : ShareLink} (h : share.Made rt)
    (hkey : other.tokenLookupKey = share.tokenLookupKey) (htoken : other.tokenHash = share.tokenHash)
    (hpassword : other.passwordHash = share.passwordHash) : other.Made rt := by
  refine ⟨?_, ?_⟩
  · rw [htoken, hkey]
    exact h.token
  · rw [hpassword]
    exact h.password

theorem mem_of_update (h : shares.update share = some shares') {other : ShareLink} (hmem : other ∈ shares') :
    other = share ∨ other ∈ shares := by
  unfold ShareTable.update at h
  split at h
  · cases h
    obtain ⟨row, hrow, rfl⟩ := List.mem_map.1 hmem
    split
    · exact .inl rfl
    · exact .inr hrow
  · cases h

theorem mem_of_create (h : shares.create share = some shares') {other : ShareLink} (hmem : other ∈ shares') :
    other = share ∨ other ∈ shares := by
  unfold ShareTable.create at h
  split at h
  · cases h
    rcases List.mem_append.1 hmem with hmem | hmem
    · exact .inr hmem
    · exact .inl (List.mem_singleton.1 hmem)
  · cases h

/-- Every row of a table that a call has written is one from before, or `p` holds of it. -/
def Written (p : ShareLink → Prop) (shares : ShareTable) (result : Outcome ShareTable) : Prop :=
  ∀ shares', result = .ok shares' → ∀ share ∈ shares', p share ∨ share ∈ shares

theorem written_of_update {e : Failure} {p : ShareLink → Prop} (hp : p share) :
    Written p shares (e.unless (shares.update share)) := by
  intro shares' h other hmem
  rcases mem_of_update (unless_eq_ok.1 h) hmem with rfl | hold
  · exact .inl hp
  · exact .inr hold

theorem findShareById_mem {id : String} (h : shares.findShareById id = some share) : share ∈ shares :=
  List.mem_of_find?_eq_some h

theorem getManagedShare_mem {actorUserId shareId : String}
    (h : w.getManagedShare actorUserId shareId = .ok share) : share ∈ w.shares := by
  obtain ⟨row, hfind, h⟩ := bind_eq_ok.1 h
  split at h
  · cases h
    exact findShareById_mem (unless_eq_ok.1 hfind)
  · cases h

/-! ## What runs keep -/

/-- The cookie holds the fingerprint of the link's password hash, which admitted the password. -/
def Issued.Made (rt : Runtime) (issued : Issued) : Prop :=
  ∃ passwordHash, issued.share.passwordHash = some passwordHash ∧
    issued.accessFingerprint = rt.buildShareAccessFingerprint issued.share.id
      issued.share.tokenLookupKey.text passwordHash ∧ rt.verifyPassword issued.password passwordHash = true

structure World.Inv (rt : Runtime) (w : World) : Prop where
  shares : ∀ share ∈ w.shares, share.Made rt
  issued : ∀ issued ∈ w.issued, issued.Made rt

theorem made_password (password : Option String) (salt : Base64url) :
    ∀ passwordHash, (truthy password).map (rt.hashPassword · salt) = some passwordHash →
      ∃ password salt, passwordHash = rt.hashPassword password salt := by
  intro passwordHash h
  obtain ⟨password', -, rfl⟩ := Option.map_eq_some_iff.1 h
  exact ⟨password', salt, rfl⟩

theorem saveShareForTarget_written (hmade : share.Made rt) {e : Failure} :
    Written (ShareLink.Made rt) w.shares (e.unless (w.saveShareForTarget share)) := by
  intro shares' h other hmem
  have h := unless_eq_ok.1 h
  unfold World.saveShareForTarget at h
  split at h
  · rename_i existing _
    rcases mem_of_update h hmem with rfl | hold
    · exact .inl (hmade.of_eq rfl rfl rfl)
    · exact .inr hold
  · split at h
    · rcases mem_of_create h hmem with rfl | hold
      · exact .inl hmade
      · exact .inr hold
    · cases h

theorem createOrReissueShare_written (input : World.CreateShare) :
    Written (ShareLink.Made rt) w.shares (w.createOrReissueShare rt input) := by
  intro shares' h
  unfold World.createOrReissueShare at h
  simp only [bind_eq_ok, guard_eq_ok] at h
  obtain ⟨-, folderMap, -, -, -, -, -, hsave⟩ := h
  exact saveShareForTarget_written ⟨rfl, made_password input.password input.salt⟩ shares' hsave

theorem updateShare_written (hinv : w.Inv rt) (actorUserId shareId : String) (expiresAt : Nat)
    (downloadDisabled : Bool) :
    Written (ShareLink.Made rt) w.shares (w.updateShare actorUserId shareId expiresAt downloadDisabled) := by
  intro shares' h
  unfold World.updateShare at h
  simp only [bind_eq_ok, guard_eq_ok] at h
  obtain ⟨-, share, hshare, hupdate⟩ := h
  have hmade := hinv.shares share (getManagedShare_mem hshare)
  refine written_of_update ?_ shares' hupdate
  exact hmade.of_eq rfl rfl rfl

theorem updateSharePassword_written (hinv : w.Inv rt) (actorUserId shareId : String)
    (password : Option String) (salt : Base64url) :
    Written (ShareLink.Made rt) w.shares (w.updateSharePassword rt actorUserId shareId password salt) := by
  intro shares' h
  obtain ⟨share, hshare, hupdate⟩ := bind_eq_ok.1 h
  have hmade := hinv.shares share (getManagedShare_mem hshare)
  exact written_of_update ⟨hmade.token, made_password password salt⟩ shares' hupdate

theorem reissueShare_written (hinv : w.Inv rt) (actorUserId shareId : String) (tokenLookupKey : Base64url) :
    Written (ShareLink.Made rt) w.shares (w.reissueShare rt actorUserId shareId tokenLookupKey) := by
  intro shares' h
  unfold World.reissueShare at h
  simp only [bind_eq_ok] at h
  obtain ⟨share, hshare, folderMap, -, -, -, hupdate⟩ := h
  have hmade := hinv.shares share (getManagedShare_mem hshare)
  exact written_of_update ⟨rfl, hmade.password⟩ shares' hupdate

theorem revokeShare_written (hinv : w.Inv rt) (actorUserId shareId : String) :
    Written (ShareLink.Made rt) w.shares (w.revokeShare actorUserId shareId) := by
  intro shares' h
  obtain ⟨share, hshare, hupdate⟩ := bind_eq_ok.1 h
  have hmade := hinv.shares share (getManagedShare_mem hshare)
  refine written_of_update ?_ shares' hupdate
  exact hmade.of_eq rfl rfl rfl

theorem deleteShare_written (actorUserId shareId : String) :
    Written (ShareLink.Made rt) w.shares (w.deleteShare actorUserId shareId) := by
  intro shares' h other hmem
  obtain ⟨share, -, hdelete⟩ := bind_eq_ok.1 h
  cases hdelete
  exact .inr (List.mem_filter.1 hmem).1

theorem unlockShare_made {token password : String} {accessFingerprint : Base64url}
    (h : w.unlockShare rt token password = .ok (share, accessFingerprint)) :
    Issued.Made rt ⟨share, accessFingerprint, password⟩ := by
  obtain ⟨row, -, h⟩ := bind_eq_ok.1 h
  obtain ⟨passwordHash, hhash, h⟩ := bind_eq_ok.1 h
  split at h
  · rename_i hverify
    cases h
    exact ⟨passwordHash, unless_eq_ok.1 hhash, rfl, hverify⟩
  · cases h

theorem World.Inv.withShares (hinv : w.Inv rt) {result : Outcome ShareTable}
    (hwritten : Written (ShareLink.Made rt) w.shares result) (h : result.map w.withShares = .ok w') :
    w'.Inv rt := by
  cases result with
  | error e => cases h
  | ok shares' =>
    cases h
    exact ⟨fun share hshare => (hwritten shares' rfl share hshare).elim id (hinv.shares share), hinv.issued⟩

theorem World.Inv.act {e : World.Event} (hinv : w.Inv rt) (h : w.act rt e = .ok w') : w'.Inv rt := by
  cases e with
  | createOrReissueShare input => exact hinv.withShares (createOrReissueShare_written input) h
  | updateShare actorUserId shareId expiresAt downloadDisabled =>
    exact hinv.withShares (updateShare_written hinv actorUserId shareId expiresAt downloadDisabled) h
  | updateSharePassword actorUserId shareId password salt =>
    exact hinv.withShares (updateSharePassword_written hinv actorUserId shareId password salt) h
  | reissueShare actorUserId shareId tokenLookupKey =>
    exact hinv.withShares (reissueShare_written hinv actorUserId shareId tokenLookupKey) h
  | revokeShare actorUserId shareId =>
    exact hinv.withShares (revokeShare_written hinv actorUserId shareId) h
  | deleteShare actorUserId shareId => exact hinv.withShares (deleteShare_written actorUserId shareId) h
  | unlockShare token password =>
    change Except.map _ (w.unlockShare rt token password) = .ok w' at h
    cases hunlock : w.unlockShare rt token password with
    | error e => rw [hunlock] at h; cases h
    | ok result =>
      rw [hunlock] at h
      cases h
      refine ⟨hinv.shares, ?_⟩
      intro issued hissued
      rcases List.mem_append.1 hissued with hold | hnew
      · exact hinv.issued issued hold
      · exact List.mem_singleton.1 hnew ▸ unlockShare_made hunlock
  | tree ownerUserId event =>
    cases h
    split
    · exact hinv
    · exact ⟨fun share hshare => hinv.shares share (List.mem_filter.1 hshare).1, hinv.issued⟩
  | record records => cases h; exact ⟨hinv.shares, hinv.issued⟩
  | setMaxAge days => cases h; exact ⟨hinv.shares, hinv.issued⟩
  | wait milliseconds => cases h; exact ⟨hinv.shares, hinv.issued⟩

theorem World.Inv.step (hinv : w.Inv rt) (e : World.Event) : (w.step rt e).Inv rt := by
  unfold World.step
  split
  · rename_i w' hact
    exact hinv.act hact
  · exact hinv

theorem start_inv (files : Files) (shareMaxAgeDays now : Nat) :
    (World.start files shareMaxAgeDays now).Inv rt :=
  ⟨fun _ h => (nomatch h), fun _ h => (nomatch h)⟩

/-! ## Links in force -/

variable {cookie : Option String} {token : String}

/-- A cookie that is accepted was given out for the link as it is. -/
theorem issued_of_isUnlocked (hfree : rt.CollisionFree) (hinv : w.Inv rt) (hgenuine : w.Genuine rt cookie)
    (hshare : share ∈ w.shares) (h : World.isUnlocked rt cookie share = true) :
    share.passwordHash = none ∨ ∃ issued ∈ w.issued, cookie = some (rt.cookieValue issued.payload) ∧
      issued.share.id = share.id ∧ issued.share.tokenLookupKey = share.tokenLookupKey ∧
      issued.share.passwordHash = share.passwordHash ∧ share.HasPassword rt issued.password := by
  cases hhash : share.passwordHash with
  | none => exact .inl rfl
  | some passwordHash =>
    right
    unfold World.isUnlocked at h
    rw [hhash] at h
    obtain ⟨⟨payloadValue, signature⟩, hcut, hvalid⟩ := (Option.any_eq_true _ _).1 h
    obtain ⟨value, hcookie, hcut⟩ := Option.bind_eq_some_iff.1 hcut
    simp only [Bool.and_eq_true, decide_eq_true_eq] at hvalid
    obtain ⟨⟨-, hsignature⟩, hpayload⟩ := hvalid
    have hvalue : value = String.ofList payloadValue ++ "." ++
        (rt.signValue (String.ofList payloadValue)).text := by
      refine String.toList_inj.1 ?_
      rw [eq_of_cutAtLastDot hcut, ← hsignature]
      simp
    rw [hvalue] at hcookie
    obtain ⟨issued, hissued, hserialized⟩ := hgenuine (String.ofList payloadValue) hcookie
    rw [hserialized, hfree.payload] at hpayload
    simp only [Option.any_some, Bool.and_eq_true, decide_eq_true_eq] at hpayload
    obtain ⟨⟨hid, hkey⟩, hfingerprint⟩ := hpayload
    have hkey : issued.share.tokenLookupKey = share.tokenLookupKey := text_injective hkey
    have hid : issued.share.id = share.id := hid
    obtain ⟨passwordHash', hissuedHash, hmade, hverify⟩ := hinv.issued issued hissued
    rw [hid, hkey] at hmade
    obtain rfl := fingerprint_injective hfree ((congrArg Base64url.text hmade).symm.trans hfingerprint)
    obtain ⟨password, salt, rfl⟩ := (hinv.shares share hshare).password passwordHash' hhash
    refine ⟨issued, hissued, ?_, hid, hkey, hissuedHash, salt, ?_⟩
    · rw [hcookie, hserialized]
      rfl
    · rw [hhash, eq_of_verifyPassword hfree hverify]

theorem opens_of_resolves (hfree : rt.CollisionFree) (hinv : w.Inv rt) {visit : Visit}
    (hgenuine : w.Genuine rt visit.cookie) {target : PublicTarget}
    (hres : w.Resolves rt visit.token visit.cookie target) (hunlocked : target.isUnlocked = true) :
    w.Opens rt visit target.share := by
  obtain ⟨tokenLookupKey, -, hfind, hhash, hrevoked, hexpired⟩ := getValidatedPublicShare_eq_ok.1 hres.valid
  have hshare : target.share ∈ w.shares := List.mem_of_find?_eq_some hfind
  refine ⟨hshare, ?_, hrevoked, hexpired, ?_, ?_⟩
  · rw [(hinv.shares target.share hshare).token] at hhash
    exact hashOpaqueToken_injective hfree hhash
  · exact (targetLive_iff hres.isRow).1 (hres.folderMap ▸ hres.live)
  · exact issued_of_isUnlocked hfree hinv hgenuine hshare (hres.isUnlocked ▸ hunlocked)

/-- Whatever owners and visitors have done, an answer that gives files or what a link shows is made for the
token that the link has now, while the link is in force and its item live, to a visitor with a cookie for
its password if it has one, from live files of the owner inside what is shared. -/
theorem run_confined (hfree : rt.CollisionFree) (files : Files) (shareMaxAgeDays now : Nat)
    (events : List World.Event) (visit : Visit)
    (hgenuine : (events.foldl (World.step rt) (World.start files shareMaxAgeDays now)).Genuine rt visit.cookie)
    {ids : List String}
    (hids : ((events.foldl (World.step rt) (World.start files shareMaxAgeDays now)).answer rt visit).fileIds =
      some ids) :
    ∃ share, (events.foldl (World.step rt) (World.start files shareMaxAgeDays now)).Opens rt visit share ∧
      ∀ id ∈ ids, (events.foldl (World.step rt) (World.start files shareMaxAgeDays now)).files.Confined share id := by
  have hinv := run_keeps (I := World.Inv rt) (fun _ e h => h.step e) events
    (start_inv files shareMaxAgeDays now)
  obtain ⟨target, hres, hunlocked, hconfined⟩ := gives_of_answer hids
  exact ⟨target.share, opens_of_resolves hfree hinv hgenuine hres hunlocked, hconfined⟩

/-! ## One link, opened with a cookie -/

/-- A code with none of the separators. -/
def escapeOf : Char → List Char
  | ':' => ['~', '0']
  | '.' => ['~', '1']
  | '_' => ['~', '2']
  | '~' => ['~', '3']
  | c => [c]

def escape (value : List Char) : List Char := value.flatMap escapeOf

def unescape : List Char → List Char
  | '~' :: '0' :: rest => ':' :: unescape rest
  | '~' :: '1' :: rest => '.' :: unescape rest
  | '~' :: '2' :: rest => '_' :: unescape rest
  | '~' :: '3' :: rest => '~' :: unescape rest
  | c :: rest => c :: unescape rest
  | [] => []

theorem unescape_escape (value : List Char) : unescape (escape value) = value := by
  induction value with
  | nil => rfl
  | cons c rest ih =>
    have hhead : unescape (escapeOf c ++ escape rest) = c :: unescape (escape rest) := by
      unfold escapeOf
      split
      case h_5 => simp_all [unescape]
      all_goals rfl
    rw [escape, List.flatMap_cons]
    exact hhead.trans (congrArg (c :: ·) ih)

theorem escape_plain (value : List Char) : ∀ c ∈ escape value, c ≠ ':' ∧ c ≠ '.' ∧ c ≠ '_' := by
  intro d hd
  obtain ⟨c, -, hd⟩ := List.mem_flatMap.1 hd
  unfold escapeOf at hd
  split at hd
  case h_5 => simp_all
  all_goals
    simp only [List.mem_cons, List.not_mem_nil, or_false] at hd
    rcases hd with rfl | rfl <;> decide

def escaped (value : String) : Base64url where
  text := String.ofList (escape value.toList)
  plain := fun c hc => ⟨(escape_plain _ c (by simpa using hc)).1, (escape_plain _ c (by simpa using hc)).2.1⟩

theorem escaped_injective : Function.Injective escaped := by
  intro value value' heq
  have htext : escape value.toList = escape value'.toList := by
    simpa [escaped] using congrArg (fun code => code.text.toList) heq
  rw [← String.toList_inj, ← unescape_escape value.toList, htext, unescape_escape]

def encodePayload (payload : ShareCookiePayload) : List Char :=
  ['_'].intercalate [escape payload.shareId.toList, escape payload.tokenLookupKey.toList,
    escape payload.accessFingerprint.toList]

def decodePayload (value : List Char) : Option ShareCookiePayload :=
  match value.splitOn '_' with
  | [shareId, tokenLookupKey, accessFingerprint] =>
    some ⟨String.ofList (unescape shareId), String.ofList (unescape tokenLookupKey),
      String.ofList (unescape accessFingerprint)⟩
  | _ => none

theorem encodePayload_plain (payload : ShareCookiePayload) : ∀ c ∈ encodePayload payload, c ≠ ':' ∧ c ≠ '.' := by
  intro c hc
  simp only [encodePayload, List.intercalate, List.intersperse, List.flatten_cons, List.flatten_nil,
    List.mem_append, List.mem_singleton, List.not_mem_nil, or_false] at hc
  rcases hc with hc | rfl | hc | rfl | hc
  all_goals first | decide | exact ⟨(escape_plain _ c hc).1, (escape_plain _ c hc).2.1⟩

theorem decodePayload_encodePayload (payload : ShareCookiePayload) :
    decodePayload (encodePayload payload) = some payload := by
  have hsplit : (encodePayload payload).splitOn '_' = [escape payload.shareId.toList,
      escape payload.tokenLookupKey.toList, escape payload.accessFingerprint.toList] := by
    refine List.splitOn_intercalate '_' ?_ (List.cons_ne_nil _ _)
    simp only [List.forall_mem_cons, List.not_mem_nil, false_imp_iff, implies_true, and_true]
    refine ⟨?_, ?_, ?_⟩ <;> exact fun hmem => (escape_plain _ '_' hmem).2.2 rfl
  unfold decodePayload
  rw [hsplit]
  simp only [unescape_escape, String.ofList_toList]

/-- Codes in the place of hashes. -/
def codeRuntime : Runtime where
  secret := "s"
  sha256 := escaped
  hmac := escaped
  scrypt password salt := escaped (salt ++ ":" ++ password)
  serializePayload payload :=
    { text := String.ofList (encodePayload payload)
      plain := fun c hc => encodePayload_plain payload c (by rwa [String.toList_ofList] at hc) }
  deserializePayload value := decodePayload value.toList

theorem codeRuntime_collisionFree : codeRuntime.CollisionFree where
  sha256 := escaped_injective
  hmac := escaped_injective
  scrypt := fun salt _ _ heq => (String.append_right_inj _).1 (escaped_injective heq)
  payload := by
    intro payload
    dsimp only [codeRuntime]
    rw [String.toList_ofList, decodePayload_encodePayload]

/-- A folder with one file, of one owner. -/
def holidays : Files where
  owners := .ofList [("owner", Service.World.start
    { items := .ofList [
        ("root", ⟨.folder, none, "Files", none, none, none, none, 0⟩),
        ("folder", ⟨.folder, some "root", "Holidays", none, none, none, none, 0⟩),
        ("file", ⟨.file, some "folder", "beach.jpg", none, none, none, none, 0⟩)]
      trashEntries := .empty
      filesRoot := "root" })]
  records :=
    { columns := fun _ => ⟨"image/jpeg", 1, true, 0⟩
      folderUpdatedAt := fun _ => 0
      findReadyDerivative := fun _ _ => none
      derivativeState := fun _ => none
      legacyRecovery := []
      isReadableDerivativeFile := fun _ => false
      getFolderSizeBytes := fun _ => 1 }

def holidaysToken : String := codeRuntime.buildShareToken (escaped "k")

/-- The owner shares the folder with a password, and a visitor enters it. -/
def holidaysEvents : List World.Event :=
  [.createOrReissueShare
      { actorUserId := "owner", targetType := .folder, fileId := none, folderId := some "folder"
        expiresAt := some 10, downloadDisabled := false, password := some "p", id := "l"
        tokenLookupKey := escaped "k", salt := escaped "t" },
    .unlockShare holidaysToken "p"]

def holidaysWorld : World := holidaysEvents.foldl (World.step codeRuntime) (World.start holidays 30 0)

/-- With the cookie that the visitor got. -/
def holidaysVisit : Visit where
  token := holidaysToken
  cookie := holidaysWorld.issued.head?.map fun issued => codeRuntime.cookieValue issued.payload
  route := .nestedContent "file"

/-- The link. -/
def lockedShare : ShareLink where
  id := "l"
  createdByUserId := "owner"
  targetType := .folder
  fileId := none
  folderId := some "folder"
  tokenLookupKey := escaped "k"
  tokenHash := codeRuntime.hashOpaqueToken holidaysToken
  passwordHash := some (codeRuntime.hashPassword "p" (escaped "t"))
  downloadDisabled := false
  expiresAt := 10
  revokedAt := none

def lockedWorld : World := { World.start holidays 30 0 with shares := [lockedShare] }

theorem lockedShare_valid :
    lockedWorld.getValidatedPublicShare codeRuntime holidaysToken = .ok lockedShare := by
  refine getValidatedPublicShare_eq_ok.2 ⟨(escaped "k").text, ?_, by decide +kernel, rfl, rfl, by decide⟩
  exact getShareLookupKey_buildShareToken (by decide +kernel)

/-- A link that was never made is not found. -/
example : ((World.start holidays 30 0).getValidatedPublicShare codeRuntime holidaysToken).toOption.isNone :=
  by decide +kernel

def opened : Issued where
  share := lockedShare
  accessFingerprint := codeRuntime.buildShareAccessFingerprint "l" (escaped "k").text
    (codeRuntime.hashPassword "p" (escaped "t"))
  password := "p"

theorem lockedWorld_unlock :
    lockedWorld.unlockShare codeRuntime holidaysToken "p" = .ok (lockedShare, opened.accessFingerprint) := by
  have hverify : codeRuntime.verifyPassword "p" (codeRuntime.hashPassword "p" (escaped "t")) = true :=
    verifyPassword_hashPassword (by decide +kernel) (by decide +kernel)
  exact bind_eq_ok.2 ⟨lockedShare, lockedShare_valid, bind_eq_ok.2 ⟨_, rfl, if_pos hverify⟩⟩

theorem holidaysWorld_eq : holidaysWorld = { lockedWorld with issued := [opened] } := by
  have hact : lockedWorld.act codeRuntime (.unlockShare holidaysToken "p") =
      .ok { lockedWorld with issued := [opened] } := by
    unfold World.act
    simp only [lockedWorld_unlock]
    rfl
  show World.step codeRuntime lockedWorld (.unlockShare holidaysToken "p") = _
  unfold World.step
  rw [hact]

theorem opened_isUnlocked :
    World.isUnlocked codeRuntime (some (codeRuntime.cookieValue opened.payload)) lockedShare = true :=
  isUnlocked_of_issued codeRuntime_collisionFree rfl rfl (by decide +kernel)

theorem genuine_of_head : w.Genuine rt (w.issued.head?.map fun issued => rt.cookieValue issued.payload) := by
  cases hissued : w.issued with
  | nil => exact fun _ heq => (nomatch heq)
  | cons issued rest => exact genuine_of_issued (hissued ▸ List.mem_cons_self)

theorem holidaysVisit_fileIds :
    (holidaysWorld.answer codeRuntime holidaysVisit).fileIds = some ["file"] := by
  have hvisit : holidaysVisit =
      ⟨holidaysToken, some (codeRuntime.cookieValue opened.payload), .nestedContent "file"⟩ := by
    unfold holidaysVisit
    rw [holidaysWorld_eq]
    rfl
  have htarget : holidaysWorld.resolvePublicTarget codeRuntime holidaysToken
      (some (codeRuntime.cookieValue opened.payload)) = .ok ⟨lockedShare, true,
        .folder ⟨"folder", "owner", ⟨.folder, some "root", "Holidays", none, none, none, none, 0⟩, 0⟩,
        buildFolderMap (holidays.listFolderAncestors "owner" ["folder"])⟩ := by
    rw [holidaysWorld_eq]
    refine bind_eq_ok.2 ⟨lockedShare, lockedShare_valid, ?_⟩
    rw [opened_isUnlocked]
    rfl
  rw [hvisit]
  unfold World.answer World.contentAnswer World.resolvePublicFile
  simp only [htarget]
  rw [holidaysWorld_eq]
  rfl

theorem run_confined_holidays : (holidaysWorld.answer codeRuntime holidaysVisit).fileIds = some ["file"] ∧
    ∃ share, holidaysWorld.Opens codeRuntime holidaysVisit share ∧
      ∀ id ∈ ["file"], holidaysWorld.files.Confined share id :=
  ⟨holidaysVisit_fileIds, run_confined codeRuntime_collisionFree holidays 30 0 holidaysEvents holidaysVisit
    genuine_of_head holidaysVisit_fileIds⟩

end Staaash.Sharing
