import RtThread.Kernel.DeviceCounting

/-!
# Portals

A portal reads from one pipe and writes into another one. `rt_device_open` on the portal opens
the pipes through `_portal_open`; other users open and close the pipes on their own. The
interfaces of the pipes answer anything.
-/
namespace RtThread
open Transition

def rtDeviceFlagRdwr : BitVec 16 := 0x003
def rtDeviceOflagRdonly : BitVec 16 := 0x001
def rtDeviceOflagWronly : BitVec 16 := 0x002

/-- The two pipes, after the fields of `struct rt_portal_device`. -/
inductive PortalPipe where
  | readDev
  | writeDev
  deriving DecidableEq

abbrev PortalPipes := PortalPipe → Device Unit

namespace Portal

variable (r : PortalPipe → DriverResults)

def putPipe (dev : Device PortalPipes) (p : PortalPipe) (pipe : Device Unit) :
    Device PortalPipes :=
  { dev with driver := Function.update dev.driver p pipe }

def initPipe (p : PortalPipe) (dev : Device PortalPipes) : Option (ℤ × Device PortalPipes) :=
  ((dev.driver p).rtDeviceInit (r p).ops).map fun (err, pipe) => (err, putPipe dev p pipe)

/-- `rt_device_open` on one of the pipes, with the result that the portal looks at. -/
def openPipe (p : PortalPipe) (oflag : BitVec 16) (dev : Device PortalPipes) :
    Option (ℤ × Device PortalPipes) :=
  ((dev.driver p).rtDeviceOpen (r p).ops oflag).map fun (ret, pipe) =>
    (ret.result, putPipe dev p pipe)

/-- The portal drops the result of `rt_device_close`. -/
def closePipe (p : PortalPipe) (dev : Device PortalPipes) : Option (Device PortalPipes) :=
  ((dev.driver p).rtDeviceClose (r p).ops).map fun (_, pipe) => putPipe dev p pipe

def portalInit (dev : Device PortalPipes) : Option (ℤ × Device PortalPipes) :=
  (initPipe r .writeDev dev).bind fun (err, dev) =>
    if err ≠ rtEok then some (err, dev) else initPipe r .readDev dev

/-- The pipe is opened where `oflag` asks for `bit`. -/
def openWanted (p : PortalPipe) (oflag bit : BitVec 16) (dev : Device PortalPipes) :
    Option (ℤ × Device PortalPipes) :=
  if hasFlag oflag bit then openPipe r p bit dev else some (rtEok, dev)

def portalOpen (oflag : BitVec 16) (dev : Device PortalPipes) :
    Option (ℤ × Device PortalPipes) :=
  if oflag = 0 then some (-rtError, dev)
  else
    (openWanted r .readDev oflag rtDeviceOflagRdonly dev).bind fun (err, dev) =>
      if err ≠ rtEok then some (err, dev)
      else openWanted r .writeDev oflag rtDeviceOflagWronly dev

def portalClose (dev : Device PortalPipes) : Option (ℤ × Device PortalPipes) :=
  (closePipe r .writeDev dev).bind fun dev =>
    (closePipe r .readDev dev).map fun dev => (rtEok, dev)

def ops : DeviceOps PortalPipes where
  init := some (portalInit r)
  onOpen := some (portalOpen r)
  onClose := some (portalClose r)

end Portal

/-- A portal, with what its users and the other users of the pipes hold. -/
structure PortalSystem where
  portal : Device PortalPipes
  /-- What the other users have opened and not closed. -/
  others : PortalPipe → ℕ
  /-- The openings of the portal that are not closed, each with the pipes it opened. -/
  inForce : List (PortalPipe → Bool)

namespace PortalSystem

inductive Event where
  | rtDeviceOpen (oflag : BitVec 16) (r : PortalPipe → DriverResults)
  /-- The user of the `k`-th opening in force closes the portal. -/
  | rtDeviceClose (k : ℕ) (r : PortalPipe → DriverResults)
  | othersOpen (p : PortalPipe) (oflag : BitVec 16) (r : DriverResults)
  | othersClose (p : PortalPipe) (r : DriverResults)

/-- The pipes whose count has gone up. -/
def raised (before after : PortalPipes) (p : PortalPipe) : Bool :=
  decide ((before p).refCount < (after p).refCount)

def step (s : PortalSystem) : Event → Option (PortalSystem × ℤ)
  | .rtDeviceOpen oflag r =>
    (s.portal.rtDeviceOpen (Portal.ops r) oflag).map fun (ret, portal) =>
      ({ s with
          portal := portal
          inForce := List.replicate ret.opens (raised s.portal.driver portal.driver) ++
            s.inForce }, ret.result)
  | .rtDeviceClose k r =>
    if k < s.inForce.length ∨ s.inForce = [] then
      (s.portal.rtDeviceClose (Portal.ops r)).map fun (result, portal) =>
        ({ s with portal := portal, inForce := s.inForce.eraseIdx k }, result)
    else none
  | .othersOpen p oflag r =>
    ((s.portal.driver p).rtDeviceOpen r.ops oflag).map fun (ret, pipe) =>
      ({ s with
          portal := Portal.putPipe s.portal p pipe
          others := Function.update s.others p (s.others p + ret.opens) }, ret.result)
  | .othersClose p r =>
    if 0 < s.others p then
      ((s.portal.driver p).rtDeviceClose r.ops).map fun (result, pipe) =>
        ({ s with
            portal := Portal.putPipe s.portal p pipe
            others := Function.update s.others p (s.others p - 1) }, result)
    else none

def machine : Machine PortalSystem Event ℤ := ⟨step⟩

/-- The openings in force that have opened the pipe. -/
def holds (s : PortalSystem) (p : PortalPipe) : ℕ := s.inForce.countP fun o => o p

/-- The count of each pipe is what the other users and the users of the portal hold. -/
def Balanced (s : PortalSystem) : Prop :=
  ∀ p, (s.portal.driver p).refCount = s.others p + s.holds p

/-- A portal as `rt_portal_init` registers it over two registered pipes. -/
def registered (flags : PortalPipe → BitVec 16) : PortalSystem where
  portal := Device.rtDeviceRegister (fun p => Device.rtDeviceRegister () (flags p)) rtDeviceFlagRdwr
  others _ := 0
  inForce := []

end PortalSystem
end RtThread
