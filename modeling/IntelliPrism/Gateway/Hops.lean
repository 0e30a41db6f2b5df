import IntelliPrism.Gateway.Authority

/-!
# The headers of one connection

A header value may hold any visible byte, those past ascii included.  What such a value lists is said of
its bytes: the elements between its commas, less the blanks around them, in whatever case they are
written.  The proxy reads a value as text first, and what is not text lists nothing.

* `elements`, `HeaderValue.Lists` — what a value lists, byte by byte;
* `mem_listedNames` — the names the proxy reads are those the readable values list;
* `getAll_stripHopByHop` — **what is left of each header**;
* `stripsConnection_iff` — **nothing of the connection crosses** exactly when what an unreadable value
  lists is dropped for another reason, or is not there.
-/

namespace IntelliPrism.Gateway

open IntelliPrism.Core IntelliPrism.Lib IntelliPrism.Cache

/-! ### What a value lists -/

/-- The blanks a header value may hold. -/
def blankByte (b : UInt8) : Bool := b == 32 || b == 9

/-- The elements of a comma separated list, less the blanks around them. -/
def elements (bytes : Bytes) : List Bytes := (bytes.splitOn 44).map (trimBy blankByte)

/-- The value lists the name, in some case. -/
def HeaderValue.Lists (value : HeaderValue) (name : HeaderName) : Prop :=
  ∃ element ∈ elements value.bytes, element.map lowerByte = bytesOf name.raw

instance (value : HeaderValue) (name : HeaderName) : Decidable (value.Lists name) :=
  inferInstanceAs (Decidable (∃ element ∈ elements value.bytes, _))

theorem textByte_facts : ∀ b : UInt8, textByte b = true →
    isWhitespace (byteChar b) = blankByte b ∧ (byteChar b).toLower = byteChar (lowerByte b) ∧
      (byteChar b).val.toUInt8 = b ∧ (byteChar (lowerByte b)).val.toUInt8 = lowerByte b ∧
      (byteChar b == byteChar 44) = (b == 44) := by
  refine forall_byte ?_
  decide +kernel

/-! ### Names as bytes -/

theorem ascii_of_headerNameChar {c : Char} (h : headerNameChar c = true) : c.toNat < 128 := by
  have hunfold : headerNameChar c = ((c.val ≥ 'a'.val && c.val ≤ 'z'.val) ||
      (c.val ≥ '0'.val && c.val ≤ '9'.val) || "!#$%&'*+-.^_|~".toList.contains c || c.toNat == 0x60) := rfl
  simp only [hunfold, Bool.or_eq_true, Bool.and_eq_true, decide_eq_true_eq, beq_iff_eq, ge_iff_le,
    UInt32.le_iff_toNat_le, List.contains_iff_mem] at h
  have hchar : c.toNat = c.val.toNat := rfl
  rcases h with ((hlower | hdigit) | hmark) | hquote
  · have hhigh : c.val.toNat ≤ 122 := hlower.2
    omega
  · have hhigh : c.val.toNat ≤ 57 := hdigit.2
    omega
  · have hall : ("!#$%&'*+-.^_|~".toList.all fun c => decide (c.toNat < 128)) = true := by decide
    exact of_decide_eq_true (List.all_eq_true.mp hall c hmark)
  · omega

theorem bytesOf_name (name : HeaderName) : bytesOf name.raw = name.raw.toList.map fun c => c.val.toUInt8 := by
  have hascii := toByteArray_ofList_of_ascii fun c hc =>
    ascii_of_headerNameChar (List.all_eq_true.mp name.legal c hc)
  rwa [String.ofList_toList] at hascii

theorem byteChar_toUInt8 {c : Char} (h : c.toNat < 128) : byteChar c.val.toUInt8 = c :=
  @forall_ascii (fun c => byteChar c.val.toUInt8 = c) (by decide +kernel) c h

/-- A name is read from text exactly when that is what the text says in lowercase. -/
theorem fromText_eq_some {text : String} {name : HeaderName} :
    HeaderName.fromText text = some name ↔ text.map Char.toLower = name.raw := by
  simp only [HeaderName.fromText]
  constructor
  · intro h
    split at h
    · cases h
    · split at h
      · cases h
        rfl
      · cases h
  · intro h
    simp only [h]
    rw [dif_neg name.nonempty, dif_pos name.legal]

/-- **What is read as a name is what the bytes say.** -/
theorem fromText_bytes_iff {bytes : Bytes} (h : bytes.all textByte = true) {name : HeaderName} :
    HeaderName.fromText (String.ofList (bytes.map byteChar)) = some name ↔
      bytes.map lowerByte = bytesOf name.raw := by
  have hfacts := fun b hb => textByte_facts b (List.all_eq_true.mp h b hb)
  have hlower : (bytes.map byteChar).map Char.toLower = (bytes.map lowerByte).map byteChar := by
    rw [List.map_map, List.map_map]
    exact List.map_congr_left fun b hb => (hfacts b hb).2.1
  rw [fromText_eq_some, ← String.toList_inj, String.toList_map, String.toList_ofList, hlower, bytesOf_name]
  constructor
  · intro heq
    rw [← heq, List.map_map, List.map_map]
    exact List.map_congr_left fun b hb => (hfacts b hb).2.2.2.1.symm
  · intro heq
    rw [heq, List.map_map]
    refine (List.map_congr_left ?_).trans (List.map_id _)
    intro c hc
    exact byteChar_toUInt8 (ascii_of_headerNameChar (List.all_eq_true.mp name.legal c hc))

theorem elements_text {bytes : Bytes} (h : bytes.all textByte = true) :
    ((bytes.map byteChar).splitOn ',').map trimText = (elements bytes).map (List.map byteChar) := by
  have hfacts := fun b hb => textByte_facts b (List.all_eq_true.mp h b hb)
  have hsplit : (bytes.map byteChar).splitOn ',' = (bytes.splitOn 44).map (List.map byteChar) :=
    splitOn_map byteChar 44 fun b hb => (hfacts b hb).2.2.2.2
  rw [hsplit, elements, List.map_map, List.map_map]
  refine List.map_congr_left ?_
  intro part hpart
  show trimBy isWhitespace (part.map byteChar) = (trimBy blankByte part).map byteChar
  rw [trimBy_map]
  refine congrArg (List.map byteChar) (trimBy_congr ?_)
  intro b hb
  exact (hfacts b (mem_of_mem_splitOn hpart hb).1).1

theorem all_textByte_of_mem_elements {bytes element : Bytes} (h : bytes.all textByte = true)
    (hmem : element ∈ elements bytes) : element.all textByte = true := by
  obtain ⟨part, hpart, rfl⟩ := List.mem_map.mp hmem
  refine List.all_eq_true.mpr ?_
  intro b hb
  exact List.all_eq_true.mp h b (mem_of_mem_splitOn hpart (trimBy_subset _ _ hb)).1

def HeaderValue.Readable (value : HeaderValue) : Prop := value.bytes.all textByte = true

instance (value : HeaderValue) : Decidable value.Readable := inferInstanceAs (Decidable (_ = _))

/-- **The names the proxy reads are those the readable values list.** -/
theorem mem_listedNames {headers : HeaderMap} {name : HeaderName} :
    name ∈ listedNames headers ↔
      ∃ value ∈ headers.getAll .connection, value.Readable ∧ value.Lists name := by
  simp only [listedNames, List.mem_filterMap, List.mem_flatMap]
  constructor
  · rintro ⟨part, ⟨text, ⟨value, hvalue, htext⟩, hpart⟩, hname⟩
    rw [HeaderValue.toStr] at htext
    split at htext
    · rename_i hreadable
      cases htext
      rw [String.toList_ofList] at hpart
      have hmem : trimText part ∈ (elements value.bytes).map (List.map byteChar) := by
        rw [← elements_text hreadable]
        exact List.mem_map_of_mem hpart
      obtain ⟨element, helement, heq⟩ := List.mem_map.mp hmem
      rw [← heq, fromText_bytes_iff (all_textByte_of_mem_elements hreadable helement)] at hname
      exact ⟨value, hvalue, hreadable, element, helement, hname⟩
    · cases htext
  · rintro ⟨value, hvalue, hreadable, element, helement, hname⟩
    have hmem : element.map byteChar ∈ ((value.bytes.map byteChar).splitOn ',').map trimText := by
      rw [elements_text hreadable]
      exact List.mem_map_of_mem helement
    obtain ⟨part, hpart, heq⟩ := List.mem_map.mp hmem
    refine ⟨part, ⟨String.ofList (value.bytes.map byteChar), ⟨value, hvalue, ?_⟩, ?_⟩, ?_⟩
    · rw [HeaderValue.toStr]
      exact if_pos hreadable
    · rwa [String.toList_ofList]
    · rw [heq, fromText_bytes_iff (all_textByte_of_mem_elements hreadable helement)]
      exact hname

/-! ### What is left -/

theorem getAll_foldl_remove (names : List HeaderName) (headers : HeaderMap) (name : HeaderName) :
    (names.foldl HeaderMap.remove headers).getAll name
      = if name ∈ names then [] else headers.getAll name := by
  induction names generalizing headers with
  | nil => rfl
  | cons first rest ih =>
    rw [List.foldl_cons, ih, HeaderMap.getAll_remove]
    by_cases hrest : name ∈ rest
    · rw [if_pos hrest, if_pos (List.mem_cons_of_mem _ hrest)]
    · by_cases hfirst : name = first <;> simp [hrest, hfirst]

/-- Every `TE` value is `trailers`. -/
def TrailersOnly (headers : HeaderMap) : Prop :=
  ∀ value ∈ headers.getAll .te, spellsAnyCase "trailers" value.bytes = true

/-- A reason the proxy has to drop a header. -/
def Dropped (headers : HeaderMap) (name : HeaderName) : Prop :=
  name ∈ HeaderName.hopByHop ∨
    (∃ value ∈ headers.getAll .connection, value.Readable ∧ value.Lists name) ∨
    (name = .te ∧ ¬TrailersOnly headers)

theorem mem_listed_or_hopByHop {headers : HeaderMap} {name : HeaderName} :
    name ∈ listedNames headers ++ HeaderName.hopByHop ↔ name ∈ HeaderName.hopByHop ∨
      ∃ value ∈ headers.getAll .connection, value.Readable ∧ value.Lists name := by
  rw [List.mem_append, mem_listedNames, or_comm]

/-- **What is left of each header**: nothing where there is a reason to drop it, and else all of it. -/
theorem getAll_stripHopByHop (headers : HeaderMap) (name : HeaderName) :
    (Dropped headers name → (stripHopByHop headers).getAll name = []) ∧
      (¬Dropped headers name → (stripHopByHop headers).getAll name = headers.getAll name) := by
  have hfold := getAll_foldl_remove (listedNames headers ++ HeaderName.hopByHop) headers
  by_cases hgone : name ∈ listedNames headers ++ HeaderName.hopByHop
  · have hnil : (stripHopByHop headers).getAll name = [] := by
      unfold stripHopByHop
      simp only
      split
      · rw [hfold, if_pos hgone]
      · rw [HeaderMap.getAll_remove, hfold, if_pos hgone, ite_self]
    refine ⟨fun _ => hnil, fun hkept => absurd ?_ hkept⟩
    rcases mem_listed_or_hopByHop.mp hgone with hhop | hlisted
    · exact .inl hhop
    · exact .inr (.inl hlisted)
  · have hnamed : Dropped headers name ↔ name = .te ∧ ¬TrailersOnly headers := by
      rw [mem_listed_or_hopByHop, not_or] at hgone
      simp only [Dropped, hgone.1, hgone.2, false_or]
    rw [hnamed]
    unfold stripHopByHop
    simp only
    split
    · rename_i hall
      rw [hfold, if_neg hgone]
      refine ⟨?_, fun _ => rfl⟩
      intro ⟨hte, hnot⟩
      rw [hte] at hgone
      rw [hfold, if_neg hgone] at hall
      exact absurd (List.all_eq_true.mp hall) hnot
    · rename_i hall
      rw [HeaderMap.getAll_remove, hfold, if_neg hgone]
      refine ⟨fun hte => if_pos hte.1, ?_⟩
      intro hkept
      refine if_neg ?_
      intro hte
      rw [hte] at hgone
      rw [hfold, if_neg hgone] at hall
      exact hkept ⟨hte, fun hevery => hall (List.all_eq_true.mpr hevery)⟩

/-- Nothing of the connection crosses the proxy, and everything else does. -/
def StripsConnection (headers : HeaderMap) : Prop :=
  (∀ name ∈ HeaderName.hopByHop, (stripHopByHop headers).getAll name = []) ∧
  (∀ value ∈ headers.getAll .connection, ∀ name, value.Lists name →
    (stripHopByHop headers).getAll name = []) ∧
  (¬TrailersOnly headers → (stripHopByHop headers).getAll .te = []) ∧
  ∀ name, name ∉ HeaderName.hopByHop → (∀ value ∈ headers.getAll .connection, ¬value.Lists name) →
    (name = .te → TrailersOnly headers) → (stripHopByHop headers).getAll name = headers.getAll name

/-- What a value that is no text lists is dropped for another reason, or is not there. -/
def Overheard (headers : HeaderMap) : Prop :=
  ∀ value ∈ headers.getAll .connection, ¬value.Readable → ∀ name, value.Lists name →
    Dropped headers name ∨ headers.getAll name = []

/-- **Nothing of the connection crosses the proxy, and everything else does, exactly when what an
unreadable `Connection` value lists is dropped for another reason, or is not there.** -/
theorem stripsConnection_iff (headers : HeaderMap) : StripsConnection headers ↔ Overheard headers := by
  constructor
  · intro ⟨_, hlisted, _⟩ value hvalue _ name hname
    by_cases hdropped : Dropped headers name
    · exact .inl hdropped
    · have hleft := (getAll_stripHopByHop headers name).2 hdropped
      rw [hlisted value hvalue name hname] at hleft
      exact .inr hleft.symm
  · intro hover
    refine ⟨?_, ?_, ?_, ?_⟩
    · intro name hhop
      exact (getAll_stripHopByHop headers name).1 (.inl hhop)
    · intro value hvalue name hname
      by_cases hreadable : value.Readable
      · exact (getAll_stripHopByHop headers name).1 (.inr (.inl ⟨value, hvalue, hreadable, hname⟩))
      · by_cases hdropped : Dropped headers name
        · exact (getAll_stripHopByHop headers name).1 hdropped
        · rw [(getAll_stripHopByHop headers name).2 hdropped]
          exact (hover value hvalue hreadable name hname).resolve_left hdropped
    · intro hnot
      exact (getAll_stripHopByHop headers .te).1 (.inr (.inr ⟨rfl, hnot⟩))
    · intro name hhop hunlisted hte
      refine (getAll_stripHopByHop headers name).2 ?_
      intro hdropped
      rcases hdropped with hmem | ⟨value, hvalue, _, hname⟩ | ⟨heq, hnot⟩
      · exact hhop hmem
      · exact hunlisted value hvalue hname
      · exact hnot (hte heq)

/-! ### A header the connection names -/

def HeaderName.secret : HeaderName := ⟨"x-secret", by decide, by decide⟩

/-- `close, X-Secret`: two names. -/
def closeAndSecret : HeaderValue := ⟨bytesOf "close, X-Secret", by decide +kernel⟩

/-- What a readable value names is dropped, whatever its case. -/
theorem secret_dropped :
    closeAndSecret.Lists .secret ∧
      StripsConnection ⟨[(.connection, closeAndSecret), (.secret, closeAndSecret)]⟩ := by
  refine ⟨by decide +kernel, (stripsConnection_iff _).mpr ?_⟩
  intro value hvalue hunreadable
  have hreadable : ∀ value ∈ HeaderMap.getAll ⟨[(.connection, closeAndSecret), (.secret, closeAndSecret)]⟩
      .connection, value.Readable := by decide +kernel
  exact absurd (hreadable value hvalue) hunreadable

/-- `x-secret, é`: two names, the second of which is no text. -/
def secretAndMore : HeaderValue := ⟨bytesOf "x-secret, é", by decide +kernel⟩

/-- **A header the connection names crosses the proxy**: its name stands in a value with a byte past ascii,
which the proxy does not read. -/
theorem secret_crosses : ¬∀ headers, StripsConnection headers := by
  intro hall
  obtain ⟨-, hlisted, -⟩ := hall ⟨[(.connection, secretAndMore), (.secret, secretAndMore)]⟩
  have hgone := hlisted secretAndMore (by decide) .secret (by decide +kernel)
  revert hgone
  decide +kernel

end IntelliPrism.Gateway
