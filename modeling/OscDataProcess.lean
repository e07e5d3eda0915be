import OscDataProcess.WallClock
import OscDataProcess.DataIds
import OscDataProcess.Notification
import OscDataProcess.LoopThrift
import OscDataProcess.Tally
import OscDataProcess.Alarm
import OscDataProcess.Iteration
import OscDataProcess.RealTime
import OscDataProcess.WindingDown
