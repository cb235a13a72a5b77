/-! `usb_descr.h`: the constants of the two builds.

    `CONFIG_USB_FS` builds the full-speed card (audio class 1, with a feedback endpoint),
    `CONFIG_USB_HS` the high-speed one (audio class 2, without). -/

namespace AudioCard

/-- The build: `CONFIG_USB_FS` or `CONFIG_USB_HS`. -/
inductive Build where | fs | hs
  deriving DecidableEq

/-- `AUDIO_OFB_EP` is defined. -/
def Build.hasFeedback : Build → Bool
  | .fs => true
  | .hs => false

def audioInpEp : UInt8 := 0x81
def audioOutEp : UInt8 := 0x02
def audioOfbEp : UInt8 := 0x83

def audioOutFreq1 : UInt32 := 96000
def audioOutFreqMin : UInt32 := 48000
def audioOutFreqMax : UInt32 := 192000

def audioInpFreq0 : UInt32 := 48000
def audioInpFreq1 : UInt32 := 96000
def audioInpFreqMin : UInt32 := 48000
def audioInpFreqMax : UInt32 := 192000
def audioInpFreqStep : UInt32 := 48000

def audioOutFrameSizeByte : UInt32 := 3
def audioOutChannelNum : UInt32 := 2
def audioInpFrameSizeByte : UInt32 := 3
def audioInpChannelNum : UInt32 := 2

def epInterval : Build → UInt32
  | .fs => 0x01
  | .hs => 0x02

def acClockOutSourceId : UInt8 := 0x01
def acClockInpSourceId : UInt8 := 0x05

/-- The number of packets a high-speed endpoint moves in a millisecond. -/
def packetsPerMs (b : Build) : UInt32 := 8 / ((1 : UInt32) <<< (epInterval b - 1))

def audioOutPacketSz : Build → UInt32
  | .fs => (audioOutFreq1 * audioOutFrameSizeByte * audioOutChannelNum) / 1000
  | .hs =>
    (audioOutFreqMax * audioOutFrameSizeByte * audioOutChannelNum) / 1000 / packetsPerMs .hs

def audioInpPacketSz : Build → UInt32
  | .fs => (audioInpFreq1 * audioInpFrameSizeByte * audioInpChannelNum) / 1000
  | .hs =>
    (audioInpFreqMax * audioInpFrameSizeByte * audioInpChannelNum) / 1000 / packetsPerMs .hs

end AudioCard
