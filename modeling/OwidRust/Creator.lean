import OwidRust.Framed

/-!
# Creators, and the OWIDs calling code can hold

`Creator` of `src/creator.rs`, the constructors of `Crypto`, and `from_base64`: every public way to
an `Owid`.

* `Crypto.Built.paired` — a `Crypto` the crate builds verifies with the key it signs with;
* `encodes_createVersion` — what a creator makes has a frame, and its head is what was signed;
* `createVersion_verifies` — it is read back and verifies, before and after;
* `Obtained.encodable` — every OWID calling code can hold is written and judged.
-/

namespace OwidRust

variable {p : P256} {m : Machine}

/-! ## Keys -/

/-- What the crate uses of `p256` to read private keys, with the texts of the errors. -/
structure PrivatePems (p : P256) where
  /-- `SigningKey::from_pkcs8_pem`. -/
  fromPkcs8Pem : String → Except String p.SigningKey
  /-- `SecretKey::from_sec1_pem`, as a signing key. -/
  fromSec1Pem : String → Except String p.SigningKey

variable {pems : PrivatePems p}

namespace Crypto

/-- `Crypto::from` on a signing key. -/
def fromSigningKey (signingKey : p.SigningKey) : Crypto p :=
  ⟨some signingKey, some (p.verifyingKey signingKey)⟩

/-- `Crypto::from` on a verifying key. -/
def fromVerifyingKey (verifyingKey : p.VerifyingKey) : Crypto p := ⟨none, some verifyingKey⟩

/-- `Crypto::new`, with the key it draws. -/
def new (random : p.SigningKey) : Crypto p := ⟨some random, some (p.verifyingKey random)⟩

/-- `Crypto::new_sign_only`. -/
def newSignOnly (pems : PrivatePems p) (privatePem : String) : Except Error (Crypto p) :=
  if trimIsEmpty privatePem then .error (.key "private key PEM is empty")
  else
    match pems.fromPkcs8Pem privatePem with
    | .ok signingKey => .ok ⟨some signingKey, some (p.verifyingKey signingKey)⟩
    | .error _ =>
      match pems.fromSec1Pem privatePem with
      | .ok signingKey => .ok ⟨some signingKey, some (p.verifyingKey signingKey)⟩
      | .error e => .error (.key e)

/-- `Crypto::can_sign`. -/
def canSign (c : Crypto p) : Bool := c.signingKey.isSome

/-- The values the constructors of the crate build. -/
inductive Built (pems : PrivatePems p) : Crypto p → Prop
  | new (random : p.SigningKey) : Built pems (.new random)
  | signOnly {privatePem : String} {c : Crypto p} :
    newSignOnly pems privatePem = .ok c → Built pems c
  | verifyOnly {publicPem : String} {c : Crypto p} :
    newVerifyOnly p publicPem = .ok c → Built pems c
  | fromSigningKey (k : p.SigningKey) : Built pems (.fromSigningKey k)
  | fromVerifyingKey (k : p.VerifyingKey) : Built pems (.fromVerifyingKey k)

/-- **A `Crypto` the crate builds can verify**, with the key that belongs to the one it signs
with. -/
theorem Built.paired {c : Crypto p} (h : c.Built pems) :
    ∃ verifyingKey, c.verifyingKey = some verifyingKey ∧
      ∀ k, c.signingKey = some k → verifyingKey = p.verifyingKey k := by
  have hpair : ∀ k : p.SigningKey, ∃ verifyingKey,
      (⟨some k, some (p.verifyingKey k)⟩ : Crypto p).verifyingKey = some verifyingKey ∧
        ∀ k', some k = some k' → verifyingKey = p.verifyingKey k' := by
    intro k
    refine ⟨_, rfl, ?_⟩
    intro k' hk
    cases hk
    rfl
  cases h with
  | new k => exact hpair k
  | fromSigningKey k => exact hpair k
  | fromVerifyingKey k => exact ⟨k, rfl, fun _ hk => by cases hk⟩
  | verifyOnly h =>
    obtain ⟨k, -, rfl⟩ := newVerifyOnly_eq_ok h
    exact ⟨k, rfl, fun _ hk => by cases hk⟩
  | signOnly h =>
    unfold newSignOnly at h
    split at h
    · cases h
    · split at h
      · cases h
        exact hpair _
      · split at h
        · cases h
          exact hpair _
        · cases h

end Crypto

/-! ## Creators -/

/-- `Creator`. The bounds are what `Creator::new` checks. -/
structure Creator (p : P256) where
  domain : String
  crypto : Crypto p
  domain_ne : trimIsEmpty domain = false
  domain_le : (utf8 domain).length ≤ MAXIMUM_DOMAIN_LENGTH
  can_sign : crypto.canSign = true

/-- `Configuration`. The public key is not read. -/
structure Configuration where
  domain : String
  privateKey : String

namespace Creator

/-- `Creator::new`. -/
def new (domain : String) (crypto : Crypto p) : Except Error (Creator p) :=
  if hne : trimIsEmpty domain = true then .error (.invalidDomain domain)
  else if hlong : (utf8 domain).length > MAXIMUM_DOMAIN_LENGTH then .error .domainTooLong
  else if hsign : crypto.canSign = true then
    .ok ⟨domain, crypto, Bool.eq_false_iff.mpr hne, Nat.le_of_not_lt hlong, hsign⟩
  else .error (.keyMissing "generate a signature")

/-- `Creator::from_configuration`. -/
def fromConfiguration (pems : PrivatePems p) (configuration : Configuration) :
    Except Error (Creator p) := do
  let crypto ← Crypto.newSignOnly pems configuration.privateKey
  new configuration.domain crypto

/-- The OWID `create_version` signs. -/
def unsigned (c : Creator p) (version : Version) (payload : List UInt8) (now : Moment) : Owid :=
  ⟨version, c.domain, now, payload, []⟩

/-- `Creator::create_version`, with what the clock reads. -/
def createVersion (m : Machine) (c : Creator p) (version : Version) (payload : List UInt8)
    (now : Moment) : Except Error Owid := do
  let owid := c.unsigned version payload now
  let data ← owid.signedBytes m
  let signature ← c.crypto.signByteArray data
  if signature.length ≠ SIGNATURE_LENGTH then .error (.invalidSignatureLength signature.length)
  else return { owid with signature := signature }

/-- `Creator::create`. The version is `Version::default`. -/
def create (m : Machine) (c : Creator p) (payload : List UInt8) (now : Moment) :
    Except Error Owid := c.createVersion m .version3 payload now

end Creator

/-! ## What a creator makes -/

theorem Creator.createVersion_eq_ok {c : Creator p} {version : Version} {payload : List UInt8}
    {now : Moment} {o : Owid} (h : c.createVersion m version payload now = .ok o) :
    ∃ data k, (c.unsigned version payload now).signedBytes m = .ok data ∧
      c.crypto.signingKey = some k ∧ (p.toBytes (p.sign k data)).length = SIGNATURE_LENGTH ∧
      o = { c.unsigned version payload now with signature := p.toBytes (p.sign k data) } := by
  obtain ⟨data, hdata, h⟩ := bind_eq_ok h
  obtain ⟨signature, hsignature, h⟩ := bind_eq_ok h
  obtain ⟨k, hk⟩ := Option.isSome_iff_exists.mp c.can_sign
  rw [Crypto.signByteArray, hk] at hsignature
  simp only at hsignature
  split at hsignature
  · cases hsignature
  · rename_i hlength
    cases hsignature
    rw [if_neg hlength] at h
    cases h
    exact ⟨data, k, hdata, hk, not_not.mp hlength, rfl⟩

/-- **What a creator makes has a frame**, and the head of the frame is what was signed. -/
theorem Creator.encodes_createVersion (hm : m.Wide) {c : Creator p} {version : Version}
    {payload : List UInt8} {now : Moment} {o : Owid} (hpayload : m.HoldsVec payload)
    (h : c.createVersion m version payload now = .ok o) :
    ∃ f : Frame, f.Encodes o ∧ m.Holds f.bytes ∧
      (c.unsigned version payload now).signedBytes m = .ok f.head ∧
      ∃ k, c.crypto.signingKey = some k ∧ o.signature = p.toBytes (p.sign k f.head) := by
  obtain ⟨data, k, hdata, hk, hlength, rfl⟩ := createVersion_eq_ok h
  obtain ⟨hw, -⟩ := Owid.written_eq_ok hdata
  obtain ⟨f, hf, rfl⟩ := Frame.head_eq_ok
    (o := { c.unsigned version payload now with signature := p.toBytes (p.sign k data) }) hw hlength
  have hvec : m.HoldsVec f.payload := hf.2.2.2.1 ▸ hpayload
  exact ⟨f, hf, f.holds_bytes hm.usize_le hvec, hdata, k, hk, rfl⟩

theorem Owid.verifyWithCrypto_of_signed {o : Owid} {data : List UInt8} {c : Crypto p}
    (h : o.signedBytes m = .ok data) :
    o.verifyWithCrypto m c = c.verifyByteArray data o.signature := by
  rw [verifyWithCrypto, h, ok_bind]

/-- **What a creator makes verifies after transport.**  It is written, what is written is read
back, the signed bytes of what was read are the bytes that were signed, and both the OWID made and
the one read verify under the creator's own key, where what it takes to read and write it can be
reserved. -/
theorem createVersion_verifies (hp : p.Sound) (hm : m.Wide) {c : Creator p}
    (hc : c.crypto.Built pems) {version : Version} {payload : List UInt8} {now : Moment} {o : Owid}
    (hpayload : m.HoldsVec payload) (h : c.createVersion m version payload now = .ok o)
    (hr : m.MemoryFor o) :
    ∃ b o' data, o.asByteArray m = .ok b ∧ Owid.fromByteArray m b = .ok o' ∧
      (c.unsigned version payload now).signedBytes m = .ok data ∧
      c.crypto.signByteArray data = .ok o.signature ∧ o'.signedBytes m = .ok data ∧
      o.verifyWithCrypto m c.crypto = .ok true ∧ o'.verifyWithCrypto m c.crypto = .ok true := by
  obtain ⟨f, hf, hholds, hsigned, k, hk, hsignature⟩ := c.encodes_createVersion hm hpayload h
  obtain ⟨verifyingKey, hkey, hpaired⟩ := hc.paired
  have hhead : m.Holds f.head := f.length_head_le.trans hholds
  have hread : f.owid.signedBytes m = .ok f.head :=
    Frame.signedBytes_of_encodes hm f.encodes_owid hhead (hf.memoryFor f.encodes_owid hr).signed
  have hmade : o.signedBytes m = .ok f.head := Frame.signedBytes_of_encodes hm hf hhead hr.signed
  have hverifies : c.crypto.verifyByteArray f.head o.signature = .ok true := by
    have hsound := Crypto.verifyByteArray_sign hp k f.head (some k)
    rw [← hpaired k hk] at hsound
    rw [hsignature]
    unfold Crypto.verifyByteArray at hsound ⊢
    rw [hkey]
    exact hsound
  refine ⟨f.bytes, f.owid, f.head, Frame.asByteArray_of_encodes hm hf hholds hr.whole,
    Frame.fromByteArray_bytes f (hf.memoryFor f.encodes_owid hr).payload hholds, hsigned, ?_, hread,
    ?_, ?_⟩
  · rw [Crypto.signByteArray, hk, hsignature]
    simp only [hp.length_toBytes, ne_eq, not_true_eq_false, if_false]
  · rw [Owid.verifyWithCrypto_of_signed hmade, hverifies]
  · have hsame : f.owid.signature = o.signature := hf.2.2.2.2
    rw [Owid.verifyWithCrypto_of_signed hread, hsame, hverifies]

/-- A creator that signs with the first of the two keys. -/
def sampleCreator : Creator sampleP256 := ⟨"ab", .new false, by decide, by decide, rfl⟩

/-- No private key is read from a PEM. -/
def samplePems : PrivatePems sampleP256 := ⟨fun _ => .error "PEM error", fun _ => .error "PEM error"⟩

theorem sampleCreator_built : sampleCreator.crypto.Built samplePems :=
  Crypto.Built.new (p := sampleP256) false

/-- Made a second and a half after the second hour of the base date, as version 1. -/
def sampleMade : Owid :=
  ⟨.version1, "ab", ⟨baseDate.nanos + 7201500000000⟩, [7, 8], List.replicate 64 2⟩

theorem sampleCreator_makes : sampleCreator.createVersion machine64 .version1 [7, 8]
    ⟨baseDate.nanos + 7201500000000⟩ = .ok sampleMade := by decide +kernel

theorem createVersion_verifies_sample : ∃ b o', sampleMade.asByteArray machine64 = .ok b ∧
    Owid.fromByteArray machine64 b = .ok o' ∧
    o'.verifyWithCrypto machine64 sampleCreator.crypto = .ok true := by
  have hvec : machine64.HoldsVec [7, 8] := by unfold Machine.HoldsVec; decide
  obtain ⟨b, o', -, hwritten, hread, -, -, -, -, hverifies⟩ :=
    createVersion_verifies sampleP256_sound machine64_wide sampleCreator_built hvec
      sampleCreator_makes (machine64_memoryFor _)
  exact ⟨b, o', hwritten, hread, hverifies⟩

/-! ## What a creator can make -/

theorem Creator.new_eq_ok {domain : String} {crypto : Crypto p} {c : Creator p}
    (h : Creator.new domain crypto = .ok c) : c.domain = domain ∧ c.crypto = crypto := by
  unfold Creator.new at h
  split at h
  · cases h
  split at h
  · cases h
  split at h
  · cases h
    exact ⟨rfl, rfl⟩
  · cases h

/-- A creator whose domain has no zero byte makes an OWID of every payload and date that fit. -/
theorem Creator.exists_createVersion (hp : p.Sound) (hm : m.Wide) (c : Creator p)
    (hdomain : (0 : UInt8) ∉ utf8 c.domain) (version : Version) {payload : List UInt8}
    {now : Moment} {count : Nat} (hversion : version ≠ .empty) (hle : payload.length ≤ u32Max)
    (hpayload : m.HoldsVec payload) (hcount : dateCount version now = some count)
    (hr : m.Reserves (c.unsigned version payload now) false) :
    ∃ o, c.createVersion m version payload now = .ok o := by
  -- any signature of the right length has the frame whose head is signed
  let f : Frame := ⟨version, c.domain, count, payload, List.replicate SIGNATURE_LENGTH 0, hversion,
    ⟨hdomain, c.domain_le⟩, dateCount_lt hcount, hle, List.length_replicate⟩
  have hf : f.Encodes { c.unsigned version payload now with signature := f.signature } :=
    ⟨rfl, rfl, hcount, rfl, rfl⟩
  have hsigned := Frame.signedBytes_of_encodes hm hf
    (f.length_head_le.trans (f.holds_bytes hm.usize_le hpayload)) hr
  rw [Owid.signedBytes_signature] at hsigned
  obtain ⟨k, hk⟩ := Option.isSome_iff_exists.mp c.can_sign
  have hlength := hp.length_toBytes (p.sign k f.head)
  have hsignature : c.crypto.signByteArray f.head = .ok (p.toBytes (p.sign k f.head)) := by
    rw [Crypto.signByteArray, hk]
    exact if_neg (not_not.mpr hlength)
  refine ⟨{ c.unsigned version payload now with signature := p.toBytes (p.sign k f.head) }, ?_⟩
  rw [createVersion]
  simp only [hsigned, ok_bind, hsignature]
  exact if_neg (not_not.mpr hlength)

/-- **A creator that `Creator::new` built creates, and what it creates is read back with its domain,
exactly where no byte of the domain is zero**, whatever payload and clock reading the format and the
machine have room for. -/
theorem create_reads_back_iff (hp : p.Sound) (hm : m.Wide) {domain : String}
    {crypto : Crypto p} {c : Creator p} (hnew : Creator.new domain crypto = .ok c)
    {payload : List UInt8} (hle : payload.length ≤ u32Max) (hpayload : m.HoldsVec payload)
    {now : Moment} {count : Nat} (hnow : minutesSinceBase now = some count)
    (hr : m.MemoryFor (c.unsigned .version3 payload now)) :
    (∃ o b o', c.create m payload now = .ok o ∧ o.asByteArray m = .ok b ∧
      Owid.fromByteArray m b = .ok o' ∧ o'.domain = domain) ↔ (0 : UInt8) ∉ utf8 domain := by
  obtain ⟨hdomain, -⟩ := Creator.new_eq_ok hnew
  subst hdomain
  constructor
  · rintro ⟨o, -, -, hcreate, -⟩
    obtain ⟨f, hf, -⟩ := Creator.encodes_createVersion hm hpayload hcreate
    obtain ⟨_, _, -, -, -, rfl⟩ := Creator.createVersion_eq_ok hcreate
    have hsame : f.domain = c.domain := hf.2.1
    exact hsame ▸ f.domain_ok.1
  · intro hzero
    obtain ⟨o, ho⟩ :=
      c.exists_createVersion hp hm hzero .version3 (by decide) hle hpayload hnow hr.signed
    obtain ⟨f, hf, hholds, -⟩ := Creator.encodes_createVersion hm hpayload ho
    obtain ⟨_, _, -, -, -, rfl⟩ := Creator.createVersion_eq_ok ho
    exact ⟨_, f.bytes, f.owid, ho, Frame.asByteArray_of_encodes hm hf hholds hr.whole,
      Frame.fromByteArray_bytes f (hf.2.2.2.1 ▸ hr.payload) hholds, hf.2.1⟩

theorem create_reads_back_sample : ∃ o b o',
    sampleCreator.create machine64 [7, 8] (atMinute 5) = .ok o ∧ o.asByteArray machine64 = .ok b ∧
      Owid.fromByteArray machine64 b = .ok o' ∧ o'.domain = "ab" :=
  (create_reads_back_iff sampleP256_sound machine64_wide
    (rfl : Creator.new "ab" (.new false) = .ok sampleCreator) (by decide)
    (by unfold Machine.HoldsVec; decide) (minutesSinceBase_atMinute (by decide))
    (machine64_memoryFor _)).mpr (by decide)

/-- A creator whose domain has a zero byte. -/
def zeroByteCreator : Creator sampleP256 := ⟨"a\x00b", .new false, by decide, by decide, rfl⟩

/-- **A creator whose domain has a zero byte is built, and then refuses to create.** -/
theorem zeroByteCreator_refuses :
    Creator.new (p := sampleP256) "a\x00b" (.new false) = .ok zeroByteCreator ∧
      zeroByteCreator.create machine64 [7, 8] (atMinute 5) = .error (.invalidDomain "a\x00b") :=
  ⟨rfl, by decide +kernel⟩

/-! ## What calling code can hold -/

/-- `Owid::from_base64`, with what the `base64` crate decodes the text to. -/
def Owid.fromBase64 (m : Machine) (decode : String → Option (List UInt8)) (value : String) :
    Checked ParseError Owid :=
  if value.isEmpty then fail .missingInput
  else
    match decode value with
    | none => fail .invalidBase64
    | some buffer => Owid.fromByteArray m buffer

/-- `Owid::verify_status_with_crypto`. -/
def Owid.verifyStatusWithCrypto (m : Machine) (o : Owid) (c : Crypto p) : SignatureStatus :=
  SignatureStatus.of (o.verifyWithCrypto m c)

/-- The OWIDs the public routes hand out: the three reads and `Creator::create`. -/
inductive Obtained (m : Machine) (pems : PrivatePems p) (decode : String → Option (List UInt8)) :
    Owid → Prop
  | fromBase64 {value : String} {o : Owid} :
    (∀ buffer, decode value = some buffer → m.Holds buffer) →
    Owid.fromBase64 m decode value = .ok o → Obtained m pems decode o
  | fromByteArray {buffer : List UInt8} {o : Owid} :
    m.Holds buffer → Owid.fromByteArray m buffer = .ok o → Obtained m pems decode o
  | readFromPrefix {buffer rest : List UInt8} {o : Owid} :
    m.Holds buffer → Owid.readFromPrefix m buffer = .ok (some o, rest) → Obtained m pems decode o
  | create {c : Creator p} {payload : List UInt8} {now : Moment} {o : Owid} :
    c.crypto.Built pems → m.HoldsVec payload → c.create m payload now = .ok o →
    Obtained m pems decode o

variable {decode : String → Option (List UInt8)}

theorem encodes_fromByteArray {buffer : List UInt8} {o : Owid} (hb : m.Holds buffer)
    (h : Owid.fromByteArray m buffer = .ok o) : ∃ f : Frame, f.Encodes o ∧ m.Holds f.bytes := by
  obtain ⟨f, rfl, rfl⟩ := Frame.fromByteArray_eq_ok hb h
  exact ⟨f, f.encodes_owid, hb⟩

/-- **Every OWID calling code can hold has a frame** that the machine can hold. -/
theorem Obtained.encodes (hm : m.Wide) {o : Owid} (h : Obtained m pems decode o) :
    ∃ f : Frame, f.Encodes o ∧ m.Holds f.bytes := by
  cases h with
  | fromBase64 hb h =>
    rename_i value
    unfold Owid.fromBase64 at h
    split at h
    · cases h
    · split at h
      · cases h
      · rename_i hdecode
        exact encodes_fromByteArray (hb _ hdecode) h
  | fromByteArray hb h => exact encodes_fromByteArray hb h
  | readFromPrefix hb h =>
    rw [readFromPrefix_eq hb, Chunks.mapError_eq_ok] at h
    obtain ⟨f, rfl, rfl⟩ := framedSuffix_eq_some h
    refine ⟨f, f.encodes_owid, ?_⟩
    rw [Machine.Holds, List.length_append] at hb
    exact Nat.le_trans (Nat.le_add_right _ _) hb
  | create hc hpayload h =>
    obtain ⟨f, hf, hholds, -⟩ := Creator.encodes_createVersion hm hpayload h
    exact ⟨f, hf, hholds⟩

/-- **Every OWID that calling code can hold is encodable and judgeable.**  Its fields are within the
bounds of the format, so that, where what it takes can be reserved, it is written whole after
whatever a buffer holds, its signed bytes are had, and a check with a key the crate built answers
yes or no. -/
theorem Obtained.encodable (hm : m.Wide) {o : Owid} (h : Obtained m pems decode o)
    (hr : m.MemoryFor o) :
    ((o.version = .version1 ∨ o.version = .version2 ∨ o.version = .version3) ∧
      (0 : UInt8) ∉ utf8 o.domain ∧ (utf8 o.domain).length ≤ MAXIMUM_DOMAIN_LENGTH ∧
      o.payload.length ≤ u32Max ∧ o.signature.length = SIGNATURE_LENGTH ∧
      ∃ count, dateCount o.version o.date = some count) ∧
    (∃ b, o.asByteArray m = .ok b ∧ ∀ buffer, o.toBuffer buffer = (.ok (), buffer ++ b)) ∧
    (∃ data, o.signedBytes m = .ok data) ∧
    ∀ c : Crypto p, c.Built pems →
      o.verifyStatusWithCrypto m c = .valid ∨ o.verifyStatusWithCrypto m c = .invalid := by
  obtain ⟨f, hf, hholds⟩ := h.encodes hm
  have hsigned := Frame.signedBytes_of_encodes hm hf (f.length_head_le.trans hholds) hr.signed
  have hwritten := Frame.asByteArray_of_encodes hm hf hholds hr.whole
  have happends := Frame.appends_toBuffer hf
  have hversion := hf.version_ne
  obtain ⟨-, hd, hc, hp, hs⟩ := hf
  refine ⟨⟨?_, hd ▸ f.domain_ok.1, hd ▸ f.domain_ok.2, hp ▸ f.payload_le, hs ▸ f.signature_length,
    f.count, hc⟩, ⟨f.bytes, hwritten, happends⟩, ⟨f.head, hsigned⟩, ?_⟩
  · cases hver : o.version with
    | empty => exact absurd hver hversion
    | version1 => exact .inl rfl
    | version2 => exact .inr (.inl rfl)
    | version3 => exact .inr (.inr rfl)
  · intro c hc
    obtain ⟨key, hkey, -⟩ := hc.paired
    have hjudged : ∃ answer, Crypto.verifyByteArray (⟨none, some key⟩ : Crypto p) f.head
        o.signature = .ok answer := Crypto.verifyByteArray_isOk (hs ▸ f.signature_length)
    obtain ⟨answer, hanswer⟩ := hjudged
    have hverify : o.verifyWithCrypto m c = .ok answer := by
      rw [Owid.verifyWithCrypto_of_signed hsigned, ← hanswer]
      unfold Crypto.verifyByteArray
      rw [hkey]
    rw [Owid.verifyStatusWithCrypto, hverify]
    cases answer with
    | true => exact .inl rfl
    | false => exact .inr rfl

/-- The OWID read from the bytes of another one. -/
theorem obtained_encodable_sample : ∃ o, Owid.fromByteArray machine64 sampleBytes = .ok o ∧
    (o.verifyStatusWithCrypto machine64 sampleCreator.crypto = .valid ∨
      o.verifyStatusWithCrypto machine64 sampleCreator.crypto = .invalid) := by
  have hread : Owid.fromByteArray machine64 sampleBytes =
      .ok ⟨.version3, "ab", atMinute 1, [7, 8], List.replicate 64 9⟩ := by decide +kernel
  have hobtained : Obtained machine64 samplePems (fun _ => none)
      ⟨.version3, "ab", atMinute 1, [7, 8], List.replicate 64 9⟩ :=
    .fromByteArray (by decide) hread
  exact ⟨_, hread,
    (hobtained.encodable machine64_wide (machine64_memoryFor _)).2.2.2 _ sampleCreator_built⟩

end OwidRust
