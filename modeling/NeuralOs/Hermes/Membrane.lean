import NeuralOs.Lib.DirPath

/-!
# The membrane of a skill

A skill starts without authority and a membrane says what it may do. File
operations are decided on the text of the path: a path is allowed if it
begins with the skill's jail or with `/tmp/` and with none of the denied
directories. Dots in the path are not resolved first.
-/

set_option autoImplicit false

namespace NeuralOs.Hermes.Authority
open TextScan DirPath

inductive Capability
  | vfsRead
  | vfsWrite
  | netTcp
  | netUdp
  | displayFb
  | audioPlay
  | audioCapture
  | usbAccess
  | gpuCompute
  | rawMmio
  | portIo
  deriving DecidableEq

inductive Operation
  | fileRead (path : Text)
  | fileWrite (path : Text)
  | netConnect (host : Text) (port : UInt16)
  | capabilityUse (cap : Capability)

inductive Verdict
  | allow
  | deny
  | escalate
  deriving DecidableEq

def starSuffix : Text := "/*".toList

def globMatch (pattern path : Text) : Bool :=
  if starSuffix.isSuffixOf pattern then (pattern.take (pattern.length-1)).isPrefixOf path
  else pattern = path

structure Membrane where
  name : Text
  fsAllow : List Text
  fsDeny : List Text
  netAllow : List Text
  capabilities : List Capability
  fuelBudget : ℕ
  heapMax : ℕ
  timeoutMs : ℕ

def jailDir (name : Text) : Text := "/jail/".toList ++ name
def tmpDir : Text := "/tmp".toList

/-- The directories both constructors allow and deny. -/
def allowed (name : Text) : List Text := [jailDir name ++ starSuffix, tmpDir ++ starSuffix]

def denied : List Text :=
  ["/etc/*".toList, "/boot/*".toList, "/dev/*".toList, "/sys/*".toList]

def forLegacy (appName : Text) : Membrane where
  name := appName
  fsAllow := allowed appName
  fsDeny := denied
  netAllow := []
  capabilities := []
  fuelBudget := 10000000
  heapMax := 256*1024*1024
  timeoutMs := 60000

def forWasm (name : Text) (caps : List Capability) : Membrane where
  name := name
  fsAllow := allowed name
  fsDeny := denied
  netAllow := []
  capabilities := caps
  fuelBudget := 50000000
  heapMax := 64*1024*1024
  timeoutMs := 120000

namespace Membrane

variable (m : Membrane)

def checkFs (path : Text) : Verdict :=
  if m.fsDeny.any (globMatch · path) then .deny
  else if m.fsAllow.any (globMatch · path) then .allow
  else .deny

def check : Operation → Verdict
  | .fileRead path => m.checkFs path
  | .fileWrite path => m.checkFs path
  | .netConnect host _ =>
    if m.netAllow = [] then .deny
    else if m.netAllow.any fun a => a = host || a = ['*'] then .allow
    else .escalate
  | .capabilityUse cap =>
    if cap ∈ m.capabilities then .allow
    else if cap = .rawMmio ∨ cap = .portIo then .deny
    else .escalate

end Membrane

/-! ## Confinement -/

def Confined (name path : Text) : Prop :=
  resolve (jailDir name ++ ['/']) <+: resolve path ∨ resolve (tmpDir ++ ['/']) <+: resolve path

/-- Behind an allowed directory the path never climbs out of it. -/
def NeverClimbs (name path : Text) : Prop :=
  ∀ dir ∈ [jailDir name, tmpDir], dir++['/'] <+: path →
    inside 0 (components (path.drop (dir.length+1))) = true

instance (name path : Text) : Decidable (Confined name path) := by
  unfold Confined
  infer_instance

instance (name path : Text) : Decidable (NeverClimbs name path) := by
  unfold NeverClimbs
  infer_instance

theorem globMatch_star {dir path : Text} (h : globMatch (dir++starSuffix) path = true) :
    ∃ rest, path = dir++ '/'::rest := by
  have hstar : starSuffix.isSuffixOf (dir++starSuffix) = true := by
    rw [List.isSuffixOf_iff_suffix]
    exact List.suffix_append dir starSuffix
  have htake : (dir++starSuffix).take ((dir++starSuffix).length-1) = dir++['/'] := by
    have hlen : (dir++starSuffix).length-1 = (dir++['/']).length := by
      simp [starSuffix]
    have hsplit : dir++starSuffix = (dir++['/'])++['*'] := by
      rw [List.append_assoc]
      rfl
    rw [hlen, hsplit, List.take_left]
  rw [globMatch, if_pos hstar, htake, List.isPrefixOf_iff_prefix] at h
  obtain ⟨rest, rfl⟩ := h
  exact ⟨rest, by simp⟩

theorem checkFs_allow {m : Membrane} {name path : Text} (hm : m.fsAllow = allowed name)
    (h : m.checkFs path = .allow) :
    ∃ dir ∈ [jailDir name, tmpDir], ∃ rest, path = dir++ '/'::rest := by
  unfold Membrane.checkFs at h
  split at h
  · cases h
  split at h
  next hallow =>
    obtain ⟨pattern, hp, hmatch⟩ := List.any_eq_true.mp hallow
    rw [hm, allowed] at hp
    rcases List.mem_cons.mp hp with rfl | hp
    · exact ⟨jailDir name, by simp, globMatch_star hmatch⟩
    · cases List.mem_singleton.mp hp
      exact ⟨tmpDir, by simp, globMatch_star hmatch⟩
  next => cases h

theorem confined_of_below {name dir rest : Text} (hdir : dir ∈ [jailDir name, tmpDir])
    (h : inside 0 (components rest) = true) : Confined name (dir++ '/'::rest) := by
  unfold Confined
  rw [resolve_slash, resolve_slash]
  simp only [List.mem_cons, List.not_mem_nil, or_false] at hdir
  rcases hdir with rfl | rfl
  · exact Or.inl (resolve_inside h)
  · exact Or.inr (resolve_inside h)

/-- The file operations a membrane allows stay in the jail and in `/tmp` on
paths that never climb out of the directory they were allowed for. -/
theorem allowed_paths_confined (name : Text) (caps : List Capability) (path : Text)
    (hclimb : NeverClimbs name path) :
    ∀ m ∈ [forLegacy name, forWasm name caps], ∀ op ∈ [Operation.fileRead path, .fileWrite path],
      m.check op = .allow → Confined name path := by
  intro m hm op hop hallow
  have hfs : m.fsAllow = allowed name := by
    simp only [List.mem_cons, List.not_mem_nil, or_false] at hm
    rcases hm with rfl | rfl <;> rfl
  have hcheck : m.checkFs path = .allow := by
    simp only [List.mem_cons, List.not_mem_nil, or_false] at hop
    rcases hop with rfl | rfl <;> exact hallow
  obtain ⟨dir, hdir, rest, rfl⟩ := checkFs_allow hfs hcheck
  have hdrop : (dir++ '/'::rest).drop (dir.length+1) = rest := by simp
  have hinside := hclimb dir hdir ⟨rest, by simp⟩
  rw [hdrop] at hinside
  exact confined_of_below hdir hinside

/-- A path may climb inside its directory. -/
theorem notes_confined : Confined "notes".toList "/jail/notes/a/../b".toList :=
  allowed_paths_confined "notes".toList [] "/jail/notes/a/../b".toList (by decide)
    (forLegacy "notes".toList) List.mem_cons_self (.fileRead "/jail/notes/a/../b".toList)
    List.mem_cons_self (by decide)

/-- A path through `/tmp` is allowed and leads to a denied directory. -/
theorem tmp_path_escapes :
    (forWasm "notes".toList []).check (.fileRead "/tmp/../etc/passwd".toList) = .allow ∧
      resolve "/tmp/../etc/passwd".toList = ["etc".toList, "passwd".toList] ∧
      ¬ Confined "notes".toList "/tmp/../etc/passwd".toList := by
  decide

end NeuralOs.Hermes.Authority
