import Tlpi.Lib.PathWalk
import Tlpi.Seccomp.UserNotification

/-!
# Which directories the tracer creates (`seccomp/seccomp_user_notification.c`)

The loop of `watchForNotifications` as a function of the notifications that it handles, with the
buffer `path` that is used again for each of them: `snprintf` and `read` overwrite its first bytes
only. The directories that exist at the time of each `mkdir` are given with the notification.
-/

namespace Tlpi.UserNotification

abbrev Name := List UInt8

/-- A notification for which `read` has returned at least one byte. -/
structure Request where
  pid : Pid
  got : List UInt8
  got_ne : got ≠ []
  got_le : got.length ≤ PATH_MAX
  /-- The directories at the time of the `mkdir`. -/
  dirs : List Name → Bool
  /-- The `mkdir` fails for another reason, such as `EACCES`. -/
  denied : Bool

/-- What the tracer does with a notification: the pathname of its `mkdir` call, and `val` and `error`
of `struct seccomp_notif_resp`. -/
structure Response where
  mkdir : Option (List UInt8)
  val : Nat
  error : Int
  deriving DecidableEq, Repr

def EPERM : Int := 1

/-- The buffer when the pathname has been read. -/
def readPath (path : List UInt8) (req : Request) : List UInt8 :=
  fill (fill path (procMemPath req.pid)) req.got

/-- The decision on the pathname in the buffer. -/
def respond (path : List UInt8) : Response :=
  if tmpSlash <+: cstr path then ⟨some (cstr path), (cstr path).length, 0⟩
  else ⟨none, (cstr path).length, -EPERM⟩

/-- The loop of `watchForNotifications`, which ends after the pathname "/bye". -/
def watchForNotifications (path : List UInt8) : List Request → List Response
  | [] => []
  | req :: reqs =>
    let path := readPath path req
    respond path :: if cstr path = bye then [] else watchForNotifications path reqs

/-! ### Pathnames -/

def slash : UInt8 := 47

def dot : UInt8 := 46

def tmp : Name := [116, 109, 112]

def toComp (n : Name) : Comp Name :=
  if n = [dot] then .self else if n = [dot, dot] then .parent else .name n

/-- The components of a pathname. -/
def components (path : List UInt8) : List (Comp Name) :=
  ((path.splitOn slash).filter (· ≠ [])).map toComp

/-- The directory that the kernel creates. -/
def created (req : Request) (resp : Response) : Option (List Name) :=
  match resp.mkdir with
  | none => none
  | some path => if req.denied then none else Comp.mkdir req.dirs (components path)

/-- The bytes of a request hold a whole string; if it starts with "/tmp/", no initial part of what
follows has more ".." components than names, and where nothing follows there is a directory /tmp. -/
structure Request.Proper (req : Request) : Prop where
  terminated : 0 ∈ req.got
  stays : ∀ rest, cstr req.got = tmpSlash ++ rest → Comp.StaysBelow 0 (components rest) ∧
    (components rest = [] → req.dirs [tmp] = true)

theorem components_tmpSlash (rest : List UInt8) :
    components (tmpSlash ++ rest) = .name tmp :: components rest := by
  have hsplit : (tmpSlash ++ rest).splitOn slash = [[], tmp] ++ rest.splitOn slash := by
    rw [show tmpSlash ++ rest = ([slash] ++ tmp) ++ slash :: rest from rfl,
      List.splitOn_append_cons_of_beq _ _ (by decide)]
    rfl
  rw [components, hsplit]
  rfl

theorem respond_fill {buf got : List UInt8} (h : 0 ∈ got) : respond (fill buf got) = respond got := by
  rw [respond, respond, cstr_fill_of_mem h]

/-- The response to a terminated pathname is a function of the bytes read for it. -/
theorem watchForNotifications_getElem {path : List UInt8} {reqs : List Request} {i : Nat}
    {req : Request} {resp : Response} (hreq : reqs[i]? = some req)
    (hresp : (watchForNotifications path reqs)[i]? = some resp) (h : 0 ∈ req.got) :
    resp = respond req.got := by
  induction reqs generalizing path i with
  | nil => cases hreq
  | cons r reqs ih =>
    rw [watchForNotifications] at hresp
    cases i with
    | zero =>
      cases hreq
      cases hresp
      exact respond_fill h
    | succ i =>
      simp only [List.getElem?_cons_succ] at hreq hresp
      split at hresp
      · cases hresp
      · exact ih hreq hresp

theorem created_respond {req : Request} (h : req.Proper) {d : List Name}
    (hd : created req (respond req.got) = some d) : [tmp] <+: d ∧ d ≠ [tmp] := by
  rw [created, respond] at hd
  by_cases htmp : tmpSlash <+: cstr req.got
  · obtain ⟨rest, hrest⟩ := htmp
    rw [← hrest, if_pos (List.prefix_append ..)] at hd
    simp only [components_tmpSlash] at hd
    split at hd
    · cases hd
    · obtain ⟨hstays, hne⟩ := h.stays rest hrest.symm
      exact Comp.mkdir_below hstays hne hd
  · rw [if_neg htmp] at hd
    cases hd

/-- In every run in which each request holds a whole pathname that does not climb out of /tmp, the
directories created are in /tmp, and each response depends on the bytes of its request only. -/
theorem watchForNotifications_confined (path : List UInt8) (reqs : List Request)
    (h : ∀ req ∈ reqs, req.Proper) :
    (∀ (i : Nat) (req : Request) (resp : Response) (d : List Name), reqs[i]? = some req →
      (watchForNotifications path reqs)[i]? = some resp → created req resp = some d →
      [tmp] <+: d ∧ d ≠ [tmp]) ∧
    ∀ (path' : List UInt8) (reqs' : List Request), (∀ req ∈ reqs', req.Proper) →
      ∀ (i j : Nat) (req req' : Request) (resp resp' : Response),
      reqs[i]? = some req → reqs'[j]? = some req' → req.got = req'.got →
      (watchForNotifications path reqs)[i]? = some resp →
      (watchForNotifications path' reqs')[j]? = some resp' → resp = resp' := by
  refine ⟨fun i req resp d hreq hresp hd => ?_, ?_⟩
  · have hp := h req (List.mem_of_getElem? hreq)
    rw [watchForNotifications_getElem hreq hresp hp.terminated] at hd
    exact created_respond hp hd
  · intro path' reqs' h' i j req req' resp resp' hreq hreq' hgot hresp hresp'
    rw [watchForNotifications_getElem hreq hresp (h req (List.mem_of_getElem? hreq)).terminated,
      watchForNotifications_getElem hreq' hresp'
        (h' req' (List.mem_of_getElem? hreq')).terminated, hgot]

/-- A request with the bytes `got` after "/tmp/", when /tmp and /tmp/a exist. -/
def tmpRequest (pid : Pid) (got : List UInt8) (h : got.length ≤ 4091) : Request where
  pid := pid
  got := tmpSlash ++ got
  got_ne := nofun
  got_le := by
    rw [List.length_append]
    exact Nat.add_le_add_left h 5
  dirs := fun d => d = [tmp] ∨ d = [tmp, [97]]
  denied := false

/-- The request "/tmp/a/../b". -/
theorem watchForNotifications_confined_dotdot :
    (tmpRequest 7 [97, slash, dot, dot, slash, 98, 0] (by decide)).Proper ∧
      created (tmpRequest 7 [97, slash, dot, dot, slash, 98, 0] (by decide))
        ⟨some (tmpSlash ++ [97, slash, dot, dot, slash, 98]), 11, 0⟩ = some [tmp, [98]] ∧
      [tmp] <+: [tmp, [98]] ∧ [tmp, [98]] ≠ [tmp] := by
  have hp : (tmpRequest 7 [97, slash, dot, dot, slash, 98, 0] (by decide)).Proper := by
    refine ⟨by decide, fun rest hrest => ?_⟩
    have hstr : cstr (tmpSlash ++ [97, slash, dot, dot, slash, 98, 0]) =
      tmpSlash ++ [97, slash, dot, dot, slash, 98] := by decide
    obtain rfl := List.append_cancel_left (hstr.symm.trans hrest)
    decide
  have hd : created (tmpRequest 7 [97, slash, dot, dot, slash, 98, 0] (by decide))
      ⟨some (tmpSlash ++ [97, slash, dot, dot, slash, 98]), 11, 0⟩ = some [tmp, [98]] := by decide
  exact ⟨hp, hd, (watchForNotifications_confined [] [tmpRequest 7 [97, slash, dot, dot, slash, 98, 0]
    (by decide)] (by simpa using hp)).1 0 _ _ _ rfl (by decide) hd⟩

/-- The pathname "/tmp/../x" creates the directory /x, and the bytes "/tmp/b" without a null byte
give the processes 7 and 8 different pathnames. -/
theorem watchForNotifications_not_confined :
    (watchForNotifications [] [tmpRequest 7 [dot, dot, slash, 120, 0] (by decide)]).map
        (created (tmpRequest 7 [dot, dot, slash, 120, 0] (by decide))) = [some [[120]]] ∧
      watchForNotifications [] [tmpRequest 7 [98] (by decide)] =
        [⟨some (tmpSlash ++ [98, 55, slash, 109, 101, 109]), 11, 0⟩] ∧
      watchForNotifications [] [tmpRequest 8 [98] (by decide)] =
        [⟨some (tmpSlash ++ [98, 56, slash, 109, 101, 109]), 11, 0⟩] := by
  exact ⟨by decide, by decide, by decide⟩

end Tlpi.UserNotification
