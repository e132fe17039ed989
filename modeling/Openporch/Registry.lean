import Openporch.Ids
import Openporch.Text

/-!
# Images in a registry

`OciImage` of `crates/engine/src/registry.rs`: how the name of an image is read, and how it is written
with its tag or pinned to a digest.
-/

namespace Openporch
open List

inductive Reference where
  | tag (tag : List Char)
  | digest (digest : List Char)
deriving DecidableEq

structure OciImage where
  name : List Char
  host : List Char
  repository : List Char
  reference : Reference
deriving DecidableEq

def dockerHub : List Char := "docker.io".toList

def dockerHubApi : List Char := "registry-1.docker.io".toList

/-- `is_ascii_hexdigit`. -/
def isHexDigit (c : Char) : Bool := "0123456789abcdefABCDEF".toList.contains c

def isSha256 (hex : List Char) : Bool := hex.length = 64 && hex.all isHexDigit

def validDigest (digest : List Char) : Bool := (stripPrefix "sha256:".toList digest).any isSha256

def pinnedImage (image : List Char) : Bool :=
  (rsplitOnceAt "@sha256:".toList image).any fun (name, hex) => !name.isEmpty && !name.contains '@' && isSha256 hex

def toAsciiLowercase (s : List Char) : List Char := s.map Char.toLower

def validTag (tag : List Char) : Bool :=
  !tag.isEmpty && tag.length ≤ 128 && !tag.head?.any ['.', '-'].contains
    && tag.all fun c => c.isAlphanum || ['_', '.', '-'].contains c

def portOk (port : List Char) : Bool :=
  port.all Char.isDigit && (parseU64 port).any fun p => p < 2 ^ 16 && 0 < p

section

-- `str::parse::<Ipv6Addr>` succeeds.
variable (isIpv6 : List Char → Bool)

def validRegistryHost (host : List Char) : Bool :=
  match stripPrefix ['['] host with
  | some rest =>
    match splitOnce ']' rest with
    | none => false
    | some (address, []) => isIpv6 address
    | some (address, after) => (stripPrefix [':'] after).any fun port => isIpv6 address && portOk port
  | none =>
    let (name, port) := match splitOnce ':' host with
      | some (name, port) => (name, some port)
      | none => (host, none)
    !name.isEmpty && (name.all fun c => c.isAlphanum || ['.', '-'].contains c) && port.all portOk

def validRepository (repository : List Char) : Bool :=
  !repository.isEmpty && (splitAll '/' repository).all fun part =>
    !part.isEmpty && (part.all fun c => c.isLower || c.isDigit || ['.', '_', '-'].contains c) && part.head?.any Char.isAlphanum

def hostAndRepository (name : List Char) : List Char × List Char :=
  match splitOnce '/' name with
  | some (first, rest) =>
    if first.contains '.' || first.contains ':' || first = "localhost".toList then (toAsciiLowercase first, rest)
    else (dockerHub, name)
  | none => (dockerHub, name)

def located (name : List Char) : Option (List Char × List Char) :=
  let (host, repository) := hostAndRepository name
  if validRepository repository && validRegistryHost isIpv6 host then
    if host = dockerHub ∨ host = "index.docker.io".toList ∨ host = dockerHubApi then
      some (dockerHub, if repository.contains '/' then repository else "library/".toList ++ repository)
    else some (host, repository)
  else none

/-- The last piece of `split('/')`. -/
def lastPart (named : List Char) : List Char := (splitAll '/' named).getLast?.getD named

/-- A tag follows the last `:` after the last `/`. -/
def nameAndTag (named : List Char) : List Char × Option (List Char) :=
  match rsplitOnceAt [':'] (lastPart named) with
  | some (_, tag) => (named.take (named.length - tag.length - 1), some tag)
  | none => (named, none)

def namedAndDigest (image : List Char) : Option (List Char × Reference) :=
  match splitOnce '@' image with
  | some (named, digest) =>
    if !pinnedImage image || !validDigest digest then none else some (named, .digest (toAsciiLowercase digest))
  | none => some (image, .tag [])

namespace OciImage

def parse (image : List Char) : Option OciImage := do
  let (named, reference) ← namedAndDigest image
  let (name, tag) := nameAndTag named
  let reference := match reference with
    | .tag _ => .tag (tag.getD "latest".toList)
    | digest => digest
  let valid : Bool := match reference with
    | .tag tag => validTag tag
    | .digest _ => true
  if valid then
    let (host, repository) ← located isIpv6 name
    return ⟨name, host, repository, reference⟩
  else none

end OciImage
end

namespace OciImage
variable (i : OciImage) (digest : List Char)

def pinnedAt : List Char := i.name ++ '@' :: digest

def taggedAt : List Char :=
  match i.reference with
  | .tag tag => i.name ++ ':' :: tag ++ '@' :: digest
  | .digest _ => i.pinnedAt digest

def text : List Char :=
  match i.reference with
  | .tag tag => i.name ++ ':' :: tag
  | .digest digest => i.name ++ '@' :: digest

end OciImage

variable {rest tag digest : List Char} {c : Char} (named : List Char)

theorem lastPart_append (h : '/' ∉ rest) :
    lastPart (named ++ rest) = lastPart named ++ rest := by
  have hsplit : ∃ pre last, splitAll '/' named = pre ++ [last] ∧ splitAll '/' (named ++ rest) = pre ++ [last ++ rest] := by
    induction named with
    | nil => exact ⟨[], [], rfl, splitAll_of_not_mem h⟩
    | cons x xs ih =>
      obtain ⟨pre, last, hpre, hlast⟩ := ih
      rw [cons_append, splitAll, splitAll, hpre, hlast]
      split
      · exact ⟨[] :: pre, last, rfl, rfl⟩
      · rcases pre with _ | ⟨seg, pre⟩
        · exact ⟨[], x :: last, rfl, rfl⟩
        · exact ⟨(x :: seg) :: pre, last, rfl, rfl⟩
  obtain ⟨pre, last, hpre, hlast⟩ := hsplit
  simp [lastPart, hpre, hlast]

theorem rsplitOnceAt_append {b sep : List Char} (h : c ∉ b) (hsep : sep.reverse = c :: rest)
    (a : List Char) : rsplitOnceAt sep (a ++ sep ++ b) = some (a, b) := by
  have hsplit := splitOnceAt_append (a := b.reverse) (by simpa using h) rest a.reverse
  rw [rsplitOnceAt, reverse_append, reverse_append, hsep, ← append_assoc, hsplit]
  simp

theorem nameAndTag_colon (name : List Char) (hslash : '/' ∉ tag) (hcolon : ':' ∉ tag) :
    nameAndTag (name ++ ':' :: tag) = (name, some tag) := by
  have hlast : lastPart (name ++ ':' :: tag) = lastPart name ++ [':'] ++ tag := by
    rw [lastPart_append name (by simp [hslash])]
    simp
  have hlen : (name ++ ':' :: tag).length - tag.length - 1 = name.length := by
    rw [length_append, length_cons]
    omega
  rw [nameAndTag, hlast, rsplitOnceAt_append hcolon rfl]
  simp only [hlen, take_left]

theorem nameAndTag_none {name : List Char} (h : ':' ∉ lastPart name) : nameAndTag name = (name, none) := by
  rw [nameAndTag]
  split
  · rename_i before tag hsplit
    obtain ⟨⟨after, before'⟩, hrev, -⟩ := Option.map_eq_some_iff.1 hsplit
    have hmem : ':' ∈ (lastPart name).reverse := by
      rw [splitOnceAt_eq hrev]
      simp
    exact absurd (mem_reverse.1 hmem) h
  · rfl

theorem nameAndTag_subset : (nameAndTag named).1 ⊆ named := by
  rw [nameAndTag]
  split
  · exact take_subset _ _
  · exact List.Subset.refl _

theorem validRepository_no_colon {repository : List Char} (h : validRepository repository = true) :
    repository ≠ [] ∧ ∀ part ∈ splitAll '/' repository, ':' ∉ part := by
  simp only [validRepository, Bool.and_eq_true, Bool.not_eq_true', isEmpty_eq_false_iff, all_eq_true] at h
  refine ⟨h.1, fun part hpart hmem => ?_⟩
  exact absurd ((h.2 part hpart).1.2 _ hmem) (by decide)

variable {isIpv6 : List Char → Bool} {name : List Char} {place : List Char × List Char}

theorem lastPart_mem : lastPart named ∈ splitAll '/' named := by
  rw [lastPart, getLast?_eq_some_getLast (splitAll_ne_nil '/' named)]
  exact getLast_mem _

theorem lastPart_sep (first rest : List Char) : lastPart (first ++ '/' :: rest) = lastPart rest := by
  rw [lastPart, lastPart, splitAll_sep, getLast?_append, getLast?_eq_some_getLast (splitAll_ne_nil '/' rest)]
  rfl

theorem located_spec (h : located isIpv6 name = some place) : name ≠ [] ∧ ':' ∉ lastPart name := by
  have hrepo : validRepository (hostAndRepository name).2 = true := by
    refine Bool.of_not_eq_false fun hinvalid => ?_
    simp [located, hinvalid] at h
  have hwhole : validRepository name = true → name ≠ [] ∧ ':' ∉ lastPart name := fun hname => by
    obtain ⟨hne, hparts⟩ := validRepository_no_colon hname
    exact ⟨hne, hparts _ (lastPart_mem name)⟩
  rw [hostAndRepository] at hrepo
  split at hrepo
  · rename_i first rest hsplit
    split at hrepo
    · obtain ⟨-, hparts⟩ := validRepository_no_colon hrepo
      rw [splitOnce_eq hsplit, lastPart_sep]
      exact ⟨by simp, hparts _ (lastPart_mem rest)⟩
    · exact hwhole hrepo
  · exact hwhole hrepo

theorem validTag_chars (h : validTag tag = true) : '/' ∉ tag ∧ ':' ∉ tag ∧ '@' ∉ tag := by
  simp only [validTag, Bool.and_eq_true, all_eq_true] at h
  refine ⟨fun hc => ?_, fun hc => ?_, fun hc => ?_⟩ <;> exact absurd (h.2 _ hc) (by decide)

theorem validDigest_iff :
    validDigest digest = true ↔ ∃ hex, digest = "sha256:".toList ++ hex ∧ isSha256 hex = true := by
  simp only [validDigest, Option.any_eq_true, stripPrefix_eq_some]

theorem hexDigit_lower (h : isHexDigit c = true) :
    (c ≠ '@' ∧ c ≠ ':') ∧ isHexDigit c.toLower = true ∧ c.toLower.toLower = c.toLower := by
  have hall : "0123456789abcdefABCDEF".toList.all (fun c => decide ((c ≠ '@' ∧ c ≠ ':') ∧
      isHexDigit c.toLower = true ∧ c.toLower.toLower = c.toLower)) = true := rfl
  exact of_decide_eq_true (all_eq_true.1 hall c (elem_iff.1 h))

theorem lower_digest (h : validDigest digest = true) :
    validDigest (toAsciiLowercase digest) = true ∧ toAsciiLowercase (toAsciiLowercase digest) = toAsciiLowercase digest := by
  obtain ⟨hex, rfl, hhex⟩ := validDigest_iff.1 h
  simp only [isSha256, Bool.and_eq_true, decide_eq_true_eq, all_eq_true] at hhex
  have hprefix : toAsciiLowercase "sha256:".toList = "sha256:".toList := rfl
  have hlower : toAsciiLowercase ("sha256:".toList ++ hex) = "sha256:".toList ++ hex.map Char.toLower := by
    rw [toAsciiLowercase, map_append]
    exact congrArg (· ++ _) hprefix
  refine ⟨validDigest_iff.2 ⟨_, hlower, ?_⟩, ?_⟩
  · simp only [isSha256, length_map, hhex.1, all_map, decide_true, Bool.true_and, all_eq_true]
    exact fun c hc => (hexDigit_lower (hhex.2 c hc)).2.1
  · simp only [toAsciiLowercase, map_map]
    refine map_congr_left fun c hc => ?_
    rcases mem_append.1 hc with hc | hc
    · have hsame : "sha256:".toList.map (fun c => c.toLower.toLower) = "sha256:".toList.map Char.toLower := rfl
      exact map_inj_left.1 hsame c hc
    · exact (hexDigit_lower (hhex.2 c hc)).2.2

theorem pinnedImage_append {named : List Char} (hne : named ≠ []) (hat : '@' ∉ named) (h : validDigest digest = true) :
    pinnedImage (named ++ '@' :: digest) = true := by
  obtain ⟨hex, rfl, hhex⟩ := validDigest_iff.1 h
  have hcolon : ':' ∉ hex := fun hc => by
    simp only [isSha256, Bool.and_eq_true, all_eq_true] at hhex
    exact (hexDigit_lower (hhex.2 _ hc)).1.2 rfl
  have hsplit : rsplitOnceAt "@sha256:".toList (named ++ '@' :: ("sha256:".toList ++ hex)) = some (named, hex) := by
    have hsep : "@sha256:".toList.reverse = ':' :: "652ahs@".toList := rfl
    rw [← rsplitOnceAt_append hcolon hsep named, append_assoc]
    rfl
  rw [pinnedImage, hsplit]
  simp [hne, hat, hhex]

namespace OciImage

theorem parse_pinned {named digest : List Char} (h : located isIpv6 (nameAndTag named).1 = some place) (hat : '@' ∉ named)
    (hd : validDigest digest = true) :
    parse isIpv6 (named ++ '@' :: digest) =
      some ⟨(nameAndTag named).1, place.1, place.2, .digest (toAsciiLowercase digest)⟩ := by
  have hne : named ≠ [] := fun hnil => by
    subst hnil
    exact (located_spec h).1 rfl
  simp [parse, namedAndDigest, splitOnce_append hat, pinnedImage_append hne hat hd, hd, h]

theorem parse_tagged {tag : List Char} (h : located isIpv6 name = some place) (hat : '@' ∉ name) (ht : validTag tag = true) :
    parse isIpv6 (name ++ ':' :: tag) = some ⟨name, place.1, place.2, .tag tag⟩ := by
  obtain ⟨hslash, hcolon, htag⟩ := validTag_chars ht
  have hno : '@' ∉ name ++ ':' :: tag := by simp [hat, htag]
  simp [parse, namedAndDigest, splitOnce_of_not_mem hno, nameAndTag_colon name hslash hcolon, ht, h]

structure Read (isIpv6 : List Char → Bool) (i : OciImage) : Prop where
  located : located isIpv6 i.name = some (i.host, i.repository)
  unpinned : '@' ∉ i.name
  reference : match i.reference with
    | .tag tag => validTag tag = true
    | .digest digest => validDigest digest = true ∧ toAsciiLowercase digest = digest

theorem parse_read {image : List Char} {i : OciImage} (h : parse isIpv6 image = some i) : i.Read isIpv6 := by
  rw [parse] at h
  obtain ⟨⟨named, reference⟩, hfirst, h⟩ := Option.bind_eq_some_iff.1 h
  have hnamed : '@' ∉ named ∧ ∀ digest, reference = .digest digest →
      validDigest digest = true ∧ toAsciiLowercase digest = digest := by
    rw [namedAndDigest] at hfirst
    split at hfirst
    · rename_i hsplit
      split at hfirst
      · cases hfirst
      · rename_i hvalid
        cases hfirst
        refine ⟨splitOnce_before hsplit, fun digest hd => ?_⟩
        cases hd
        exact lower_digest (by simp at hvalid; exact hvalid.2)
    · rename_i hsplit
      cases hfirst
      exact ⟨not_mem_of_splitOnce hsplit, fun digest hd => by cases hd⟩
  have hunpinned : '@' ∉ (nameAndTag named).1 := fun hmem => hnamed.1 (nameAndTag_subset named hmem)
  cases reference with
  | tag _ =>
    dsimp only at h
    split at h
    · rename_i hvalid
      obtain ⟨place, hplace, h⟩ := Option.bind_eq_some_iff.1 h
      cases h
      exact ⟨hplace, hunpinned, hvalid⟩
    · cases h
  | digest digest =>
    obtain ⟨place, hplace, h⟩ := Option.bind_eq_some_iff.1 h
    cases h
    exact ⟨hplace, hunpinned, hnamed.2 digest rfl⟩

/-- An image that was read is read again from its text, and pinned to a digest, with its tag or without, it
keeps its host and repository. -/
theorem pinned_repository {image : List Char} {i : OciImage} (h : parse isIpv6 image = some i) :
    parse isIpv6 i.text = some i ∧ ∀ digest, validDigest digest = true →
      ∀ pinned ∈ [i.pinnedAt digest, i.taggedAt digest], ∃ j, parse isIpv6 pinned = some j ∧
        j.host = i.host ∧ j.repository = i.repository ∧ j.reference = .digest (toAsciiLowercase digest) := by
  obtain ⟨hplace, hat, href⟩ := parse_read h
  have hbare : nameAndTag i.name = (i.name, none) := nameAndTag_none (located_spec hplace).2
  have hpin : ∀ digest, validDigest digest = true → parse isIpv6 (i.pinnedAt digest) =
      some ⟨i.name, i.host, i.repository, .digest (toAsciiLowercase digest)⟩ := by
    intro digest hd
    have hloc : located isIpv6 (nameAndTag i.name).1 = some (i.host, i.repository) := by rw [hbare]; exact hplace
    have hparse := parse_pinned hloc hat hd
    rwa [hbare] at hparse
  obtain ⟨name, host, repository, reference⟩ := i
  cases reference with
  | tag tag =>
    obtain ⟨hslash, hcolon, htag⟩ := validTag_chars href
    refine ⟨parse_tagged hplace hat href, fun digest hd pinned hp => ?_⟩
    have hloc : located isIpv6 (nameAndTag (name ++ ':' :: tag)).1 = some (host, repository) := by
      rw [nameAndTag_colon name hslash hcolon]
      exact hplace
    have htagged := parse_pinned hloc (by simp [hat, htag]) hd
    simp only [mem_cons, not_mem_nil, or_false] at hp
    rcases hp with rfl | rfl
    · exact ⟨_, hpin digest hd, rfl, rfl, rfl⟩
    · exact ⟨_, htagged, rfl, rfl, rfl⟩
  | digest old =>
    refine ⟨?_, fun digest hd pinned hp => ?_⟩
    · have hsame := hpin old href.1
      rwa [href.2] at hsame
    · simp only [mem_cons, not_mem_nil, or_false] at hp
      rcases hp with rfl | rfl <;> exact ⟨_, hpin digest hd, rfl, rfl, rfl⟩

theorem nginx_repository : ∃ i, parse (fun _ => false) "nginx:1.27".toList = some i ∧
    i.repository = "library/nginx".toList ∧ parse (fun _ => false) i.text = some i ∧
    ∀ pinned ∈ [i.pinnedAt ("sha256:".toList ++ replicate 64 'A'), i.taggedAt ("sha256:".toList ++ replicate 64 'A')],
      ∃ j, parse (fun _ => false) pinned = some j ∧ j.host = i.host ∧ j.repository = i.repository ∧
        j.reference = .digest ("sha256:".toList ++ replicate 64 'a') := by
  have hparse : parse (fun _ => false) "nginx:1.27".toList =
      some ⟨"nginx".toList, dockerHub, "library/nginx".toList, .tag "1.27".toList⟩ := by decide +kernel
  have hdigest : validDigest ("sha256:".toList ++ replicate 64 'A') = true := by decide +kernel
  obtain ⟨hagain, hpinned⟩ := pinned_repository hparse
  exact ⟨_, hparse, rfl, hagain, hpinned _ hdigest⟩

end OciImage
end Openporch
